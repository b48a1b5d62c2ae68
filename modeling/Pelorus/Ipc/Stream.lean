import Pelorus.Ipc.Framing

/-
  Ipc/Stream.lean --- a channel over its whole life: what a sequence of calls returns
  on a given stream, and what a poisoned channel does.

  `recv_frame` and `recv_other` are the two things one receive can do; the run lemma
  (`run_recv`) is an induction over the calls with the rest of the stream, and the
  messages it returns are the longest list whose frames start the stream because
  frames are self-delimiting (`frame_append_inj`).
-/
set_option autoImplicit false

namespace Pelorus.Ipc

open Lib Lib.Bytes

/-! ## Calls -/

/-- A call on a channel. -/
inductive Call where
  | recv (v : Vocabulary)
  | send (v : Vocabulary) (message : v.Msg)

/-- A message with its vocabulary. -/
abbrev Parcel : Type := Sigma Vocabulary.Msg

/-- What a call returned. -/
inductive Returned where
  | received (parcel : Parcel)
  | sent
  | failed (e : IpcError)

namespace Channel

/-- One call. -/
def step (ch : Channel) : Call → Returned × Channel
  | .recv v =>
      match recv v ch with
      | .ok message ch => (.received ⟨v, message⟩, ch)
      | .error e ch => (.failed e, ch)
  | .send v message =>
      match send v message ch with
      | .ok _ ch => (.sent, ch)
      | .error e ch => (.failed e, ch)

/-- A sequence of calls. -/
def run (ch : Channel) : List Call → List Returned × Channel
  | [] => ([], ch)
  | call :: calls =>
      let (returned, ch) := ch.step call
      let (rest, ch) := run ch calls
      (returned :: rest, ch)

/-! ## Once poisoned -/

theorem run_poisoned {ch : Channel} (h : ch.poisoned = true) : ∀ calls : List Call,
    ch.run calls = (calls.map fun _ => .failed .poisoned, ch)
  | [] => rfl
  | call :: calls => by
      have hstep : ch.step call = (.failed .poisoned, ch) := by
        cases call with
        | recv v => simp [step, recv, h]
        | send v message => simp [step, send, h]
      rw [run, hstep]
      simp only [run_poisoned h calls, List.map_cons]

/-! ## Sending -/

/-- A program that writes these bytes: all of them, or a part before it fails and poisons the
channel. -/
def Writes (bytes : Bytes) (m : ChannelM PUnit) : Prop :=
  ∀ ch : Channel,
    (∃ outcomes, m ch = .ok ⟨⟩ { ch with writer := ⟨ch.writer.written ++ bytes, outcomes⟩ }) ∨
    ∃ kind part outcomes, part <+: bytes ∧ m ch = .error (.ofKind kind)
      { ch with writer := ⟨ch.writer.written ++ part, outcomes⟩, poisoned := true }

theorem writes_writeAllPoisoning (bytes : Bytes) : Writes bytes (writeAllPoisoning bytes) := by
  intro ch
  unfold writeAllPoisoning Writer.writeAll
  cases ch.writer.outcomes with
  | nil => exact Or.inl ⟨[], rfl⟩
  | cons outcome outcomes =>
      cases outcome with
      | done => exact Or.inl ⟨outcomes, rfl⟩
      | failed after kind =>
          exact Or.inr ⟨kind, bytes.take after, outcomes, List.take_prefix _ _, rfl⟩

theorem Writes.bind {a b : Bytes} {m n : ChannelM PUnit} (hm : Writes a m) (hn : Writes b n) :
    Writes (a ++ b) (m >>= fun _ => n) := by
  intro ch
  rcases hm ch with ⟨outcomes, hok⟩ | ⟨kind, part, outcomes, hpart, herror⟩
  · rw [StateRun.run_bind_ok hok]
    rcases hn { ch with writer := ⟨ch.writer.written ++ a, outcomes⟩ } with
      ⟨outcomes', hok'⟩ | ⟨kind, part, outcomes', hpart, herror⟩
    · refine Or.inl ⟨outcomes', ?_⟩
      rw [hok', List.append_assoc]
    · refine Or.inr ⟨kind, a ++ part, outcomes', (List.prefix_append_right_inj a).mpr hpart, ?_⟩
      rw [herror, List.append_assoc]
  · rw [StateRun.run_bind_error herror]
    exact Or.inr ⟨kind, part, outcomes, hpart.trans (List.prefix_append a b), rfl⟩

/-- What a send on a channel that is not poisoned does: it refuses a message that is too large and
leaves the channel as it was; or it writes the frame; or a write fails, and the channel is poisoned
with part of the frame written. -/
theorem send_cases (v : Vocabulary) (message : v.Msg) {ch : Channel} (h : ch.poisoned = false) :
    (¬ Sendable v message ∧ ∃ claimed, send v message ch = .error (.messageTooLarge claimed) ch) ∨
    Sendable v message ∧
      ((∃ outcomes, send v message ch =
        .ok ⟨⟩ { ch with writer := ⟨ch.writer.written ++ frame v message, outcomes⟩ }) ∨
      ∃ kind part outcomes, part <+: frame v message ∧ send v message ch =
        .error (.ofKind kind)
          { ch with writer := ⟨ch.writer.written ++ part, outcomes⟩, poisoned := true }) := by
  unfold send
  simp only [h, Bool.false_eq_true, if_false]
  split
  · rename_i hlarge
    exact Or.inl ⟨Nat.not_le_of_lt hlarge, _, rfl⟩
  · rename_i hsmall
    refine Or.inr ⟨Nat.le_of_not_lt hsmall, ?_⟩
    have hwrites := (writes_writeAllPoisoning (leBytes LENGTH_PREFIX_BYTES
      ((v.codec.write message).length + 1))).bind ((writes_writeAllPoisoning [v.tag]).bind
        ((writes_writeAllPoisoning (v.codec.write message)).bind (writes_writeAllPoisoning [])))
    rw [List.append_nil] at hwrites
    rw [← h]
    exact hwrites ch

/-! ## Receiving -/

/-- The frames of some messages, one after the other. -/
def frames (parcels : List Parcel) : Bytes := parcels.flatMap fun p => frame p.1 p.2

/-- All can be sent. -/
def AllSendable (parcels : List Parcel) : Prop := ∀ p ∈ parcels, Sendable p.1 p.2

/-- The messages of the longest start of the stream that is made of frames, of the types the
calls expect. -/
structure Longest (expected : List Vocabulary) (stream : Bytes) (parcels : List Parcel) : Prop where
  types : parcels.map Sigma.fst <+: expected
  sendable : AllSendable parcels
  starts : frames parcels <+: stream
  longest : ∀ others : List Parcel, others.map Sigma.fst <+: expected → AllSendable others →
    frames others <+: stream → others <+: parcels

/-- Frames are self-delimiting. -/
theorem frame_append_inj {v : Vocabulary} {m n : v.Msg} (hm : Sendable v m) (hn : Sendable v n)
    {r s : Bytes} (h : frame v m ++ r = frame v n ++ s) : m = n ∧ r = s := by
  have hclean : (Channel.new (Reader.ofBytes (frame v m ++ r)) ⟨[], []⟩).poisoned = false := rfl
  obtain ⟨reader, hrecv, hcontent, -⟩ := recv_frame hm hclean (by simp [Channel.new] : _ = frame v m ++ r)
  obtain ⟨reader', hrecv', hcontent', -⟩ := recv_frame hn hclean (by simp [Channel.new, h] : _ = frame v n ++ s)
  rw [hrecv] at hrecv'
  cases hrecv'
  exact ⟨rfl, hcontent.symm.trans hcontent'⟩

theorem longest_cons {v : Vocabulary} {vs : List Vocabulary} {m : v.Msg} {rest : Bytes}
    {parcels : List Parcel} (hm : Sendable v m) (h : Longest vs rest parcels) :
    Longest (v :: vs) (frame v m ++ rest) (⟨v, m⟩ :: parcels) := by
  refine ⟨?_, ?_, ?_, ?_⟩
  · rw [List.map_cons]
    exact List.cons_prefix_cons.mpr ⟨rfl, h.types⟩
  · intro p hp
    rcases List.mem_cons.mp hp with rfl | hp
    · exact hm
    · exact h.sendable p hp
  · rw [frames, List.flatMap_cons]
    exact (List.prefix_append_right_inj _).mpr h.starts
  · intro others htypes hsend hstarts
    cases others with
    | nil => exact List.nil_prefix
    | cons p others =>
        obtain ⟨w, n⟩ := p
        rw [List.map_cons, List.cons_prefix_cons] at htypes
        obtain ⟨rfl, htypes⟩ := htypes
        obtain ⟨tail, htail⟩ := hstarts
        rw [frames, List.flatMap_cons, List.append_assoc] at htail
        obtain ⟨rfl, hrest⟩ := frame_append_inj (hsend ⟨w, n⟩ (by simp)) hm htail
        exact List.cons_prefix_cons.mpr ⟨rfl, h.longest others htypes
          (fun q hq => hsend q (by simp [hq])) ⟨tail, hrest⟩⟩

theorem longest_nil {expected : List Vocabulary} {stream : Bytes}
    (h : ∀ v ∈ expected.head?, ∀ m rest, Sendable v m → stream ≠ frame v m ++ rest) :
    Longest expected stream [] := by
  refine ⟨List.nil_prefix, (fun p hp => by cases hp), List.nil_prefix, ?_⟩
  intro others htypes hsend hstarts
  cases others with
  | nil => exact List.nil_prefix
  | cons p others =>
      obtain ⟨w, n⟩ := p
      obtain ⟨tail, htail⟩ := hstarts
      rw [frames, List.flatMap_cons, List.append_assoc] at htail
      obtain ⟨more, hmore⟩ := htypes
      refine absurd htail.symm (h w ?_ n _ (hsend ⟨w, n⟩ (by simp)))
      rw [← hmore]
      simp

/-- Receiving at the end of a stream that has ended. -/
theorem run_recv_ended {ch : Channel} (hclean : ch.poisoned = false) (hended : ch.reader = []) :
    ∀ vs : List Vocabulary,
      ch.run (vs.map .recv) = (vs.map fun _ => .failed .peerClosed, ch)
  | [] => rfl
  | v :: vs => by
      have hstep : ch.step (.recv v) = (.failed .peerClosed, ch) := by
        obtain ⟨reader, writer, poisoned⟩ := ch
        cases hclean
        cases hended
        rfl
      rw [List.map_cons, run, hstep]
      simp only [run_recv_ended hclean hended vs, List.map_cons]

/-- The first call that returns no message, and all after it. -/
inductive Stops (ch ch' : Channel) : List Returned → Prop where
  /-- Every call returned a message. -/
  | never : Stops ch ch' []
  /-- The stream ended before a whole length. -/
  | closed (n : Nat) : ch.reader.ends = true → ch'.poisoned = false → ch'.reader = [] →
      Stops ch ch' (List.replicate (n + 1) (.failed .peerClosed))
  /-- The channel was poisoned. -/
  | poisoned (e : IpcError) (n : Nat) : ch'.poisoned = true →
      Stops ch ch' (.failed e :: List.replicate n (.failed .poisoned))

/-- What a sequence of receives returns. -/
theorem run_recv {ch : Channel} (hclean : ch.poisoned = false) (vs : List Vocabulary) :
    ∃ parcels failures ch', Longest vs ch.reader.content parcels ∧
      ch.run (vs.map .recv) = (parcels.map .received ++ failures, ch') ∧
      ch'.writer = ch.writer ∧ Stops ch ch' failures := by
  induction vs generalizing ch with
  | nil =>
      exact ⟨[], [], ch, longest_nil (by simp), rfl, rfl, .never⟩
  | cons v vs ih =>
      by_cases hstart : ∃ m rest, Sendable v m ∧ ch.reader.content = frame v m ++ rest
      · obtain ⟨m, rest, hsend, hstream⟩ := hstart
        obtain ⟨reader, hrecv, hcontent, hends⟩ := recv_frame hsend hclean hstream
        obtain ⟨parcels, failures, ch', hlongest, hrun, hwriter, hstops⟩ :=
          @ih { ch with reader } hclean
        refine ⟨⟨v, m⟩ :: parcels, failures, ch', ?_, ?_, hwriter, ?_⟩
        · rw [hstream, ← hcontent]
          exact longest_cons hsend hlongest
        · rw [List.map_cons, run, step, hrecv]
          simp only [hrun, List.map_cons, List.cons_append]
        · cases hstops with
          | never => exact .never
          | closed n hended hpoisoned hnil => exact .closed n (hends ▸ hended) hpoisoned hnil
          | poisoned e n hpoisoned => exact .poisoned e n hpoisoned
      · have hother : ∀ m rest, Sendable v m → ch.reader.content ≠ frame v m ++ rest :=
          fun m rest hsend heq => hstart ⟨m, rest, hsend, heq⟩
        obtain ⟨e, reader, poisoned, hrecv, hcases⟩ := recv_other hclean hother
        have hrun : ch.run ((v :: vs).map .recv) =
            (.failed e :: (run { ch with reader, poisoned } (vs.map .recv)).1,
              (run { ch with reader, poisoned } (vs.map .recv)).2) := by
          rw [List.map_cons, run, step, hrecv]
        have hlongest : Longest (v :: vs) ch.reader.content [] := longest_nil (by simpa using hother)
        rcases hcases with rfl | ⟨rfl, rfl, hends, -, rfl⟩
        · rw [@run_poisoned { ch with reader, poisoned := true } rfl] at hrun
          refine ⟨[], _, _, hlongest, hrun, rfl, ?_⟩
          simp only [List.map_map]
          rw [show (vs.map ((fun _ => Returned.failed .poisoned) ∘ Call.recv)) =
            List.replicate vs.length (.failed .poisoned) from List.map_const']
          exact .poisoned e vs.length rfl
        · rw [@run_recv_ended { ch with reader := [], poisoned := false } rfl rfl] at hrun
          refine ⟨[], _, _, hlongest, hrun, rfl, ?_⟩
          simp only [List.map_const', ← List.replicate_succ]
          exact .closed vs.length hends rfl rfl

/-- The messages whose send returned. -/
def sentOf : List Call → List Returned → List Parcel
  | .send v message :: calls, .sent :: returned => ⟨v, message⟩ :: sentOf calls returned
  | _ :: calls, _ :: returned => sentOf calls returned
  | _, _ => []

theorem sentOf_failed (e : IpcError) : ∀ calls : List Call, sentOf calls (calls.map fun _ => .failed e) = []
  | [] => rfl
  | .recv _ :: calls => sentOf_failed e calls
  | .send _ _ :: calls => sentOf_failed e calls

/-- What a run writes is the frames of what was sent, and more only if the channel was poisoned. -/
theorem run_writes : ∀ (calls : List Call) (ch : Channel), AllSendable (sentOf calls (ch.run calls).1) ∧
    ∃ part, (ch.run calls).2.writer.written =
        ch.writer.written ++ frames (sentOf calls (ch.run calls).1) ++ part ∧
      ((ch.run calls).2.poisoned = false → part = [])
  | [], ch => ⟨List.forall_mem_nil _, [], by simp [sentOf, frames, run], fun _ => rfl⟩
  | call :: calls, ch => by
      cases hclean : ch.poisoned with
      | true =>
          rw [run_poisoned hclean, sentOf_failed]
          exact ⟨List.forall_mem_nil _, [], by simp [frames], fun _ => rfl⟩
      | false =>
          cases call with
          | recv v =>
              by_cases hstart : ∃ m rest, Sendable v m ∧ ch.reader.content = frame v m ++ rest
              · obtain ⟨m, rest, hsend, hstream⟩ := hstart
                obtain ⟨reader, hrecv, -⟩ := recv_frame hsend hclean hstream
                simpa only [run, step, hrecv, sentOf] using run_writes calls { ch with reader }
              · obtain ⟨e, reader, poisoned, hrecv, -⟩ :=
                  recv_other hclean fun m rest hsend heq => hstart ⟨m, rest, hsend, heq⟩
                simpa only [run, step, hrecv, sentOf] using run_writes calls { ch with reader, poisoned }
          | send v message =>
              rcases send_cases v message hclean with
                ⟨-, claimed, hsend⟩ | ⟨hsmall, ⟨outcomes, hsend⟩ | ⟨kind, part, outcomes, -, hsend⟩⟩
              · simpa only [run, step, hsend, sentOf] using run_writes calls ch
              · obtain ⟨hall, hwritten⟩ := run_writes calls
                  { ch with writer := ⟨ch.writer.written ++ frame v message, outcomes⟩ }
                simp only [run, step, hsend, sentOf]
                refine ⟨List.forall_mem_cons.mpr ⟨hsmall, hall⟩, ?_⟩
                rwa [frames, List.flatMap_cons, ← List.append_assoc]
              · simp only [run, step, hsend, sentOf]
                rw [run_poisoned rfl, sentOf_failed]
                exact ⟨List.forall_mem_nil _, part, by simp [frames], nofun⟩

theorem run_frames : ∀ (parcels : List Parcel) {ch : Channel} {rest : Bytes}, ch.poisoned = false →
    AllSendable parcels → ch.reader.content = frames parcels ++ rest →
    (ch.run (parcels.map fun p => .recv p.1)).1 = parcels.map .received
  | [], _, _, _, _, _ => rfl
  | p :: parcels, ch, rest, hclean, hall, hstream => by
      rw [frames, List.flatMap_cons, List.append_assoc] at hstream
      obtain ⟨reader, hrecv, hcontent, -⟩ := recv_frame (hall p List.mem_cons_self) hclean hstream
      have ih := @run_frames parcels { ch with reader } rest hclean
        (fun q hq => hall q (List.mem_cons_of_mem p hq)) hcontent
      simp only [List.map_cons, run, step, hrecv, ih]

/-- Whatever one end calls and however its writes fail, an end that reads what was written, cut in any
way, receives every message whose send returned, in order; and there is nothing else to be read unless
the channel was poisoned. -/
theorem sent_is_received (reader peer : Reader) (writer writer' : Writer) (calls : List Call)
    (hpeer : ((new reader writer).run calls).2.writer.written = writer.written ++ peer.content) :
    ((new peer writer').run ((sentOf calls ((new reader writer).run calls).1).map fun p => .recv p.1)).1 =
        (sentOf calls ((new reader writer).run calls).1).map .received ∧
      (((new reader writer).run calls).2.poisoned = false →
        peer.content = frames (sentOf calls ((new reader writer).run calls).1)) := by
  obtain ⟨hall, part, hwritten, hclean⟩ := run_writes calls (new reader writer)
  rw [hpeer, List.append_assoc] at hwritten
  have hcontent := List.append_cancel_left hwritten
  exact ⟨run_frames _ rfl hall hcontent, fun h => by rw [hcontent, hclean h, List.append_nil]⟩

theorem sent_is_received_ping :
    ((new (Reader.ofBytes (frame .request .ping)) ⟨[], []⟩).run [.recv .request]).1 =
        [.received ⟨.request, .ping⟩] :=
  (sent_is_received [] _ ⟨[], []⟩ ⟨[], []⟩ [.send .request .ping] rfl).1

end Channel

end Pelorus.Ipc
