import Heimdall.Http.ContentLength

/-!
# Sending a message

`send_http` calls `write` with what is left of the message until a call returns 0. A socket that
blocks takes at least one byte when it is asked for any, so that the call that returns 0 is the one
that is asked for none.

Nothing in the program catches SIGPIPE: when the peer has closed the connection the process ends in
`write`, and the test for EPIPE behind it is never reached.
-/

namespace Heimdall.Http

/-- What a call of `write` does: it takes so many bytes, it fails, or it raises SIGPIPE. -/
inductive WriteCall
  | took (k : Nat)
  | failed
  | sigpipe
  deriving DecidableEq

/-- How far `send_http` is after some calls of `write`. -/
inductive Sending
  | writing
  | returned (t : Throwable)
  | killed
  deriving DecidableEq

def strlen (s : List Byte) : Nat := (s.takeWhile (· ≠ 0)).length

/-- The message from `(int) sent` on. -/
def unsent (message : List Byte) (sent : Nat) : Exec (List Byte) :=
  if 0 ≤ longToInt sent ∧ longToInt sent ≤ message.length then
    .ok (message.drop (longToInt sent).toNat)
  else .error .outOfBounds

/-- `send_http` when `sent` bytes have been sent, over the next calls of `write`, with the bytes
that they take. -/
def sendHttp (message : List Byte) (total : Nat) :
    Nat → List WriteCall → Exec (Sending × List Byte)
  | _, [] => .ok (.writing, [])
  | sent, call :: calls => do
    let rest ← unsent message sent
    match call with
    | .failed => .ok (.returned (.create statusError .errno "send_http"), [])
    | .sigpipe => .ok (.killed, [])
    | .took 0 => .ok (.returned (.create statusOk .null "send_http"), [])
    | .took (k + 1) =>
      let (s, out) ← sendHttp message total (sent + (k + 1)) calls
      .ok (s, (rest.take (total - sent)).take (k + 1) ++ out)

/-- Calls of `write` on a socket that blocks, the first of which is asked for `room` bytes. -/
def Writes : Nat → List WriteCall → Prop
  | _, [] => True
  | room, .took k :: calls => k ≤ room ∧ (k = 0 → room = 0) ∧ Writes (room - k) calls
  | room, _ :: calls => Writes room calls

instance decidableWrites : (room : Nat) → (calls : List WriteCall) → Decidable (Writes room calls)
  | _, [] => inferInstanceAs (Decidable True)
  | room, .took k :: calls =>
    have := decidableWrites (room - k) calls
    inferInstanceAs (Decidable (k ≤ room ∧ (k = 0 → room = 0) ∧ Writes (room - k) calls))
  | room, .failed :: calls => decidableWrites room calls
  | room, .sigpipe :: calls => decidableWrites room calls

/-- Calls of `write` that take all of `room` bytes, the last of them asked for none. -/
def TakesAll : Nat → List WriteCall → Prop
  | room, .took 0 :: _ => room = 0
  | room, .took (k + 1) :: calls => k + 1 ≤ room ∧ TakesAll (room - (k + 1)) calls
  | _, _ => False

/-- What has been delivered of the bytes `rest`, in `calls` calls of `write`. -/
structure Delivered (rest : List Byte) (calls : Nat) (s : Sending) (out : List Byte) : Prop where
  isPrefix : out <+: rest
  whole : ∀ t, s = .returned t → t.isAnError = false → out = rest
  busy : s = .writing → calls ≤ out.length

section Send

variable {message : List Byte} {total sent : Nat} {calls : List WriteCall}

theorem strlen_le (s : List Byte) : strlen s ≤ s.length := (List.takeWhile_prefix _).length_le

theorem strlen_eq {s : List Byte} (h : 0 ∉ s) : strlen s = s.length := by
  refine congrArg List.length (List.takeWhile_eq_self_iff.2 fun b hb => ?_)
  exact decide_eq_true fun h0 => h (h0 ▸ hb)

theorem unsent_of_le (hint : (sent : Int) ≤ intMax) (hle : sent ≤ message.length) :
    unsent message sent = .ok (message.drop sent) := by
  unfold unsent
  rw [DigitString.longToInt_of_le hint, if_pos ⟨by omega, by omega⟩]
  rfl

/-- **`send_http` from any point on.** The induction is on the calls of `write`. -/
theorem sendHttp_delivered (hint : (total : Int) ≤ intMax) (hlen : total ≤ message.length)
    (hle : sent ≤ total) (hcalls : Writes (total - sent) calls) :
    ∃ s out, sendHttp message total sent calls = .ok (s, out) ∧
      Delivered ((message.take total).drop sent) calls.length s out := by
  induction calls generalizing sent with
  | nil =>
    exact ⟨_, _, rfl, List.nil_prefix, fun t h0 => (nomatch h0), fun _ => Nat.zero_le 0⟩
  | cons call calls ih =>
    have hrest : unsent message sent = .ok (message.drop sent) :=
      unsent_of_le (by omega) (by omega)
    have hnone : ∀ s : Sending, s ≠ .writing → (∀ t, s = .returned t → t.isAnError = true) →
        Delivered ((message.take total).drop sent) (call :: calls).length s [] := by
      intro s hw hr
      refine ⟨List.nil_prefix, fun t h0 herr => ?_, fun h0 => absurd h0 hw⟩
      exact absurd ((hr t h0).symm.trans herr) Bool.noConfusion
    rw [sendHttp, hrest, Exec.ok_bind]
    cases call with
    | failed =>
      exact ⟨_, _, rfl, hnone _ Sending.noConfusion fun t h0 => by cases h0; rfl⟩
    | sigpipe =>
      exact ⟨_, _, rfl, hnone _ Sending.noConfusion fun t h0 => nomatch h0⟩
    | took k =>
      obtain ⟨hk, hzero, hcalls⟩ := hcalls
      cases k with
      | zero =>
        have hend : sent = total := by have := hzero rfl; omega
        refine ⟨_, _, rfl, List.nil_prefix, fun t h0 _ => ?_, fun h0 => nomatch h0⟩
        rw [hend, List.drop_of_length_le (List.length_take_le _ _)]
      | succ k =>
        have hroom : total - sent - (k + 1) = total - (sent + (k + 1)) := by omega
        rw [hroom] at hcalls
        obtain ⟨s, out, heq, hprefix, hwhole, hbusy⟩ := ih (by omega) hcalls
        have hsplit : (message.take total).drop sent =
            ((message.drop sent).take (total - sent)).take (k + 1) ++
              (message.take total).drop (sent + (k + 1)) := by
          rw [← List.drop_drop, List.drop_take, List.take_append_drop]
        simp only [heq, Exec.ok_bind]
        refine ⟨_, _, rfl, ?_, fun t h0 herr => ?_, fun h0 => ?_⟩
        · rw [hsplit]
          exact (List.prefix_append_right_inj _).2 hprefix
        · rw [hsplit, hwhole t h0 herr]
        · have hlong := hbusy h0
          simp only [List.length_append, List.length_take, List.length_drop, List.length_cons]
          omega

/-- `send_http` returns OK exactly when the calls of `write` take everything. -/
theorem sendHttp_ok_iff (hint : (total : Int) ≤ intMax) (hlen : total ≤ message.length)
    (hle : sent ≤ total) (hcalls : Writes (total - sent) calls) :
    (∃ t out, sendHttp message total sent calls = .ok (.returned t, out) ∧ t.isAnError = false) ↔
      TakesAll (total - sent) calls := by
  induction calls generalizing sent with
  | nil =>
    constructor
    · rintro ⟨t, out, h, -⟩
      cases h
    · exact False.elim
  | cons call calls ih =>
    have hrest : unsent message sent = .ok (message.drop sent) :=
      unsent_of_le (by omega) (by omega)
    rw [sendHttp, hrest, Exec.ok_bind]
    cases call with
    | failed =>
      constructor
      · rintro ⟨t, out, h, herr⟩
        cases h
        cases herr
      · exact False.elim
    | sigpipe =>
      constructor
      · rintro ⟨t, out, h, -⟩
        cases h
      · exact False.elim
    | took k =>
      obtain ⟨hk, hzero, hcalls⟩ := hcalls
      cases k with
      | zero => exact iff_of_true ⟨_, _, rfl, rfl⟩ (hzero rfl)
      | succ k =>
        have hroom : total - sent - (k + 1) = total - (sent + (k + 1)) := by omega
        rw [TakesAll, hroom, and_iff_right hk, ← ih (by omega) (hroom ▸ hcalls)]
        constructor
        · rintro ⟨t, out, h, herr⟩
          obtain ⟨⟨s, rest⟩, heq, h⟩ := Exec.bind_ok h
          cases h
          exact ⟨t, rest, heq, herr⟩
        · rintro ⟨t, out, heq, herr⟩
          refine ⟨t, ((message.drop sent).take (total - sent)).take (k + 1) ++ out, ?_, herr⟩
          dsimp only
          rw [heq]
          rfl

/-- **A message is sent whole or the caller knows.** Whatever parts of it the calls of `write` take,
what has been sent is a beginning of the message; it is the whole message when `send_http` returns
OK; and `send_http` comes to an end within one call more than the message has bytes. -/
theorem sendHttp_whole (hint : (total : Int) ≤ intMax) (hlen : total ≤ message.length)
    (hcalls : Writes total calls) :
    ∃ s out, sendHttp message total 0 calls = .ok (s, out) ∧ out <+: message.take total ∧
      (∀ t, s = .returned t → t.isAnError = false → out = message.take total) ∧
      (total < calls.length → s ≠ .writing) := by
  obtain ⟨s, out, heq, hprefix, hwhole, hbusy⟩ :=
    sendHttp_delivered hint hlen (Nat.zero_le total) hcalls
  rw [List.drop_zero] at hprefix hwhole
  refine ⟨s, out, heq, hprefix, hwhole, fun hlong hw => ?_⟩
  have hle := hprefix.length_le
  have hmany := hbusy hw
  rw [List.length_take] at hle
  omega

/-- A message that is taken whole. -/
theorem sendHttp_takesAll (hint : (total : Int) ≤ intMax) (hlen : total ≤ message.length)
    (hcalls : Writes total calls) (hall : TakesAll total calls) : ∃ t, t.isAnError = false ∧
      sendHttp message total 0 calls = .ok (.returned t, message.take total) := by
  obtain ⟨t, out, heq, herr⟩ := (sendHttp_ok_iff hint hlen (Nat.zero_le total) hcalls).2 hall
  obtain ⟨s, out', heq', hdelivered⟩ :=
    sendHttp_delivered hint hlen (Nat.zero_le total) hcalls
  cases heq.symm.trans heq'
  have hwhole := hdelivered.whole t rfl herr
  rw [List.drop_zero] at hwhole
  exact ⟨t, herr, hwhole ▸ heq⟩

theorem sendHttp_whole_parts : ∃ s out,
    sendHttp [65, 66, 67] 3 0 [.took 1, .took 2, .took 0] = .ok (s, out) ∧ out <+: [65, 66, 67] ∧
      ∀ t, s = .returned t → t.isAnError = false → out = [65, 66, 67] := by
  have hlen : 3 ≤ ([65, 66, 67] : List Byte).length := by decide
  have hcalls : Writes 3 [.took 1, .took 2, .took 0] := by decide
  obtain ⟨s, out, heq, hprefix, hwhole, -⟩ := sendHttp_whole (by decide) hlen hcalls
  exact ⟨s, out, heq, hprefix, hwhole⟩

end Send

end Heimdall.Http
