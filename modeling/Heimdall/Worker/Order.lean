import Heimdall.Worker.Delivery
import Heimdall.Worker.RequestWork

/-!
# The order of the responses

`Heimdall.Worker.Pipeline` orders the messages as `request_work` has read them: the header, and as
many bytes as it has found in the `Content-Length`. Here they are compared with what the servers
have sent. The order is right and every response is whole as long as the lengths are read, that is
if each `Content-Length` gives the length of the body from the second byte behind its colon on, in
the format of C, and the buffers for the header blocks are not moved (`responses_in_order`). A
response of 12 bytes with `Content-Length:12` is cut after two of them, and the next one follows
there (`responses_cut`).
-/

namespace Heimdall.Worker

open Heimdall.Http

/-- What the client of a connection with `count` requests has got: the first responses whole, in the
order of their requests, then the beginning of the next one, and nothing of it before `request_work`
has its header. -/
structure Pipeline.InOrder (count : Nat) (message : Nat → List Byte) (s : Pipeline) : Prop where
  client_prefix : s.client <+: messages message count
  front_le : s.front ≤ count
  part : ∃ part, part <+: message s.front ∧ s.client = messages message s.front ++ part
  next : (s.nodes s.front).request.served = false → s.client = messages message s.front

section Order

variable {count : Nat} {answer : Nat → CompleteReply} {reply : Nat → Reply} {heap : Nat → Heap}
  {machine : Nat → Machine} {response : Nat → Response} {s : Pipeline}

/-- The messages are in order as they have been read. -/
theorem Pipeline.inOrder_reachable (h : (pipeline count fun i => (answer i).reply).Reachable s) :
    s.InOrder count fun i => (answer i).message := by
  obtain ⟨hle, hpart, hbegins, -⟩ := messages_in_order h
  have hs := ordered_reachable h
  refine ⟨hbegins, hle, hpart, fun hr => ?_⟩
  rw [hs.client_eq, Node.out_unserved (hs.kept s.front) hr, List.append_nil]

/-- If the messages that have been read are in the order of others, for any number of requests, then
they are the same. -/
theorem message_eq {message : Nat → List Byte}
    (h : ∀ count s, (pipeline count fun i => (answer i).reply).Reachable s →
      s.InOrder count message) (i : Nat) : (answer i).message = message i := by
  have hall (k : Nat) : messages (fun i => (answer i).message) k = messages message k := by
    obtain ⟨s, hs, hfront, hclient⟩ := exists_delivered k answer
    have ho := Pipeline.ordered_reachable hs
    have habs := ho.absent s.front (hfront ▸ ho.created_le)
    have hnext := (h k s hs).next (by rw [habs]; rfl)
    rw [← hclient, hnext, hfront]
  have hsucc := hall (i + 1)
  rw [messages_succ, messages_succ, hall i] at hsucc
  exact List.append_cancel_left hsucc

/-- The length that has been read is that of the body if the message is the response. -/
theorem Answers.lengthRead_of_message {h : Heap} {m : Machine} {r : Response} {a : CompleteReply}
    (ha : Answers h m r) (hreply : receiveReply h m = .ok a.reply) (heq : a.message = r.message) :
    r.LengthRead := by
  obtain ⟨haccepted, hrefused⟩ := receiveReply_text ha.keeps ha.stream_eq
  by_cases hacc : Accepted r.head.fields
  · have hread := Except.ok.inj ((haccepted hacc).symm.trans hreply)
    injection hread with hheader hlength
    refine ⟨hacc, ?_⟩
    have hbody : a.data.take a.length = r.body := by
      unfold CompleteReply.message Response.message at heq
      rw [← hheader, cString_text] at heq
      exact List.append_cancel_left heq
    have hlen := congrArg List.length hbody
    rw [List.length_take, Nat.min_eq_left a.length_le] at hlen
    rw [hlength, hlen]
  · obtain ⟨header, len, hbad⟩ := hrefused hacc
    cases hbad.symm.trans hreply

/-- **The responses arrive in order** and whole, in every run and for any number of requests, if the
length of each of them is read and the buffer for its header block stays in its place. Where the
buffers do, and every reply is complete as it has been read, they arrive so only then. -/
theorem responses_in_order (hsends : ∀ i, Sends (machine i) (response i))
    (hreply : ∀ i, receiveReply (heap i) (machine i) = .ok (reply i)) :
    ((∀ i, (response i).LengthRead ∧ (heap i).Keeps (response i).head.text.length) →
      ∀ count s, (pipeline count reply).Reachable s →
        s.InOrder count fun i => (response i).message) ∧
    ((∀ i, (reply i).Complete ∧ (heap i).Keeps (response i).head.text.length) →
      (∀ count s, (pipeline count reply).Reachable s →
        s.InOrder count fun i => (response i).message) →
      ∀ i, (response i).LengthRead) := by
  constructor
  · intro hread count s hs
    have heq : reply = fun i => (response i).complete.reply := by
      funext i
      have hanswers : Answers (heap i) (machine i) (response i) := ⟨hsends i, (hread i).2⟩
      exact Except.ok.inj ((hreply i).symm.trans (hanswers.receiveReply_eq (hread i).1))
    subst heq
    have hs' := Pipeline.inOrder_reachable hs
    simp only [Response.complete_message] at hs'
    exact hs'
  · intro hcomplete h i
    choose answer hanswer using fun i => (hcomplete i).1.exists_eq
    obtain rfl := funext hanswer
    have hanswers : Answers (heap i) (machine i) (response i) := ⟨hsends i, (hcomplete i).2⟩
    exact hanswers.lengthRead_of_message (hreply i) (message_eq h i)

end Order

/-- Nothing stands between the colon and the length. -/
def cutField : Field :=
  ⟨bytes "Content-Length", bytes "12", contentLength_plain, contentLength_colon, by decide⟩

theorem cutField_announces : cutField.Announces 12 :=
  ⟨[], bytes "12", [], rfl, nofun, by decide, by simp [bytes], rfl⟩

theorem cutField_counts : cutField.IsContentLength := by decide

/-- Complete, with a body of 12 bytes. -/
def cutResponse : Response where
  head := { okResponse.head with fields := [cutField] }
  body := bytes "Hello World!"
  extra := []
  reset := false
  announced _ hf _ := List.mem_singleton.1 hf ▸ cutField_announces
  counted := ⟨cutField, List.mem_singleton_self _, cutField_counts⟩
  body_pos := Nat.succ_pos 11

def cutMachine : Machine where
  connects := true
  calls := []
  stream := cutResponse.stream
  reset := false

/-- What `request_work` reads of it: the length is that behind the first digit. -/
def cutReply : CompleteReply where
  header := cutResponse.head.text
  length := 2
  data := cutResponse.body
  reset := false
  length_pos := by decide
  length_le := by decide

theorem cutMachine_answers : Answers steadyHeap cutMachine cutResponse :=
  ⟨⟨rfl, rfl⟩, steadyHeap_keeps _⟩

theorem cutMachine_reply : receiveReply steadyHeap cutMachine = .ok cutReply.reply := by
  have hacc : Accepted cutResponse.head.fields := ⟨fun _ => by decide, trivial⟩
  have hlen : lengthAfter cutResponse.head.fields (-1) = 2 := by decide
  have hreply := (receiveReply_text cutMachine_answers.keeps cutMachine_answers.stream_eq).1 hacc
  rw [hlen] at hreply
  exact hreply

/-- The responses with ` 1` are read and arrive in order, and those with `12` are not and do not. -/
theorem responses_in_order_ok :
    (∀ count s, (pipeline count fun _ => okResponse.complete.reply).Reachable s →
      s.InOrder count fun _ => okResponse.message) ∧
    ¬ ∀ count s, (pipeline count fun _ => cutReply.reply).Reachable s →
      s.InOrder count fun _ => cutResponse.message := by
  constructor
  · exact (@responses_in_order (fun _ => okResponse.complete.reply) (fun _ => steadyHeap)
      (fun _ => okMachine) (fun _ => okResponse) (fun _ => okMachine_serves.answers.toSends)
      (fun _ => okMachine_serves.answers.receiveReply_eq okResponse_read)).1
      fun _ => ⟨okResponse_read, steadyHeap_keeps _⟩
  · intro h
    have hread := (@responses_in_order (fun _ => cutReply.reply) (fun _ => steadyHeap)
      (fun _ => cutMachine) (fun _ => cutResponse) (fun _ => cutMachine_answers.toSends)
      (fun _ => cutMachine_reply)).2 (fun _ => ⟨⟨by decide, by decide⟩, steadyHeap_keeps _⟩) h 0
    exact absurd hread.length_eq (by decide)

/-- Two requests, each answered with the 12 bytes: behind two of them the next header follows. -/
theorem responses_cut : ¬ ∀ (count : Nat) (heap : Nat → Heap) (machine : Nat → Machine)
    (response : Nat → Response) (reply : Nat → Reply) (s : Pipeline),
    (∀ i, Sends (machine i) (response i)) →
    (∀ i, receiveReply (heap i) (machine i) = .ok (reply i)) →
    (pipeline count reply).Reachable s →
      s.client <+: messages (fun i => (response i).message) count := by
  intro h
  obtain ⟨s, hs, -, hclient⟩ := exists_delivered 2 fun _ => cutReply
  have hbegins := h 2 (fun _ => steadyHeap) (fun _ => cutMachine) (fun _ => cutResponse)
    (fun _ => cutReply.reply) s (fun _ => cutMachine_answers.toSends) (fun _ => cutMachine_reply) hs
  rw [hclient] at hbegins
  exact absurd hbegins (by decide)

end Heimdall.Worker
