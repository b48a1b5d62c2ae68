import Pelorus.Gpu.Session
import Pelorus.Gpu.Strips

/-
  Gpu/Exchange.lean --- what one exchange wrote, and what it took for a frame.

  WRITING.  A part of an exchange that is to write certain requests writes them all, or fails
  after some of them (`Writes`); meanwhile nothing has arrived.

  READING.  A frame is what one sequence of messages carries: a header with the serial and the
  size, and the strips of that size (`Received`).
-/
set_option autoImplicit false

namespace Pelorus.Gpu

open Lib Lib.Postcard Lib.StateRun Ipc Paint

/-! ## Writing -/

/-- The process was written these requests, and the record of its fonts is what it was. -/
structure Wrote (l : List GpuRequest) (t t' : Talk) : Prop where
  queued : t'.queued = t.queued ++ l
  sent : t'.sent = t.sent
  fresh : t'.fresh = t.fresh

/-- Nothing has arrived: whenever the session looked, there was nothing. -/
def Quiet (t t' : Talk) : Prop := ∃ n, t.inbound = List.replicate n .silence ++ t'.inbound

theorem Wrote.refl (t : Talk) : Wrote [] t t := ⟨(List.append_nil _).symm, rfl, rfl⟩

variable {l : List GpuRequest} {t t' : Talk} {width : UInt32}

theorem Wrote.trans {l' : List GpuRequest} {t'' : Talk} (h : Wrote l t t') (h' : Wrote l' t' t'') :
    Wrote (l ++ l') t t'' :=
  ⟨by rw [h'.queued, h.queued, List.append_assoc], h'.sent.trans h.sent, h'.fresh.trans h.fresh⟩

theorem Quiet.refl (t : Talk) : Quiet t t := ⟨0, rfl⟩

theorem Quiet.trans {t'' : Talk} (h : Quiet t t') (h' : Quiet t' t'') : Quiet t t'' := by
  obtain ⟨n, hn⟩ := h
  obtain ⟨m, hm⟩ := h'
  exact ⟨n + m, by rw [hn, hm, List.replicate_add, List.append_assoc]⟩

/-- A program that writes these requests, or stops after some of them. -/
def Writes (l : List GpuRequest) (m : TalkM PUnit) : Prop :=
  ∀ t, match m t with
    | .ok _ t' => Wrote l t t' ∧ Quiet t t'
    | .error _ t' => ∃ part, part <+: l ∧ Wrote part t t'

theorem Writes.cases {l : List GpuRequest} {m : TalkM PUnit} (h : Writes l m) (t : Talk) :
    (∃ t', m t = .ok ⟨⟩ t' ∧ Wrote l t t' ∧ Quiet t t') ∨
      ∃ cause t' part, m t = .error cause t' ∧ part <+: l ∧ Wrote part t t' := by
  have ht := h t
  cases hm : m t with
  | ok u t' =>
      rw [hm] at ht
      exact .inl ⟨t', rfl, ht⟩
  | error cause t' =>
      rw [hm] at ht
      obtain ⟨part, hpart, hwrote⟩ := ht
      exact .inr ⟨cause, t', part, rfl, hpart, hwrote⟩

theorem writes_pure : Writes [] (pure ⟨⟩) := fun t => ⟨.refl t, .refl t⟩

theorem Writes.bind {l' : List GpuRequest} {m m' : TalkM PUnit} (h : Writes l m) (h' : Writes l' m') :
    Writes (l ++ l') (m >>= fun _ => m') := by
  intro t
  rw [run_bind]
  rcases h.cases t with ⟨t', hm, hwrote, hquiet⟩ | ⟨cause, t', part, hm, hpart, hwrote⟩
  · rw [hm]
    rcases h'.cases t' with ⟨t'', hm', hwrote', hquiet'⟩ | ⟨cause, t'', part, hm', hpart, hwrote'⟩
    · simp only [hm']
      exact ⟨hwrote.trans hwrote', hquiet.trans hquiet'⟩
    · simp only [hm']
      exact ⟨l ++ part, List.prefix_append_right_inj _ |>.mpr hpart, hwrote.trans hwrote'⟩
  · rw [hm]
    exact ⟨part, hpart.trans (List.prefix_append _ _), hwrote⟩

theorem writes_forM {α : Type} {f : α → TalkM PUnit} {g : α → List GpuRequest} :
    ∀ {l : List α}, (∀ a ∈ l, Writes (g a) (f a)) → Writes (l.flatMap g) (l.forM f)
  | [], _ => writes_pure
  | a :: l, h => by
      rw [List.flatMap_cons]
      exact (h a List.mem_cons_self).bind (writes_forM fun b hb => h b (List.mem_cons_of_mem _ hb))

theorem offer_ok : ∀ {room room' : List Room} {inbound inbound' : List Arrival},
    offer room inbound = (.ok (), room', inbound') → ∃ n, inbound = List.replicate n .silence ++ inbound'
  | [], _, _, _, h => by cases h
  | .gone :: _, _, _, _, h => by cases h
  | .accepted :: _, _, _, _, h => by
      cases h
      exact ⟨0, rfl⟩
  | .full late :: room, room', [], inbound', h => by
      simp only [offer, tryRecvFrom] at h
      split at h
      · cases h
      · exact offer_ok h
  | .full late :: room, room', .silence :: inbound, inbound', h => by
      simp only [offer, tryRecvFrom] at h
      split at h
      · cases h
      · obtain ⟨n, hn⟩ := offer_ok h
        exact ⟨n + 1, by rw [hn, List.replicate_succ, List.cons_append]⟩
  | .full late :: room, room', .message m :: inbound, inbound', h => by
      rw [offer, tryRecvFrom] at h
      split at h <;> first
        | cases h
        | (rename_i hm; cases hm)

theorem writes_send (request : GpuRequest) : Writes [request] (send request) := by
  intro t
  unfold send
  cases encodeFrame .gpuRequest request with
  | error e => exact ⟨[], List.nil_prefix, .refl t⟩
  | ok bytes =>
      dsimp only
      cases hoffer : offer t.outbound t.inbound with
      | mk outcome rest =>
          obtain ⟨room, inbound⟩ := rest
          cases outcome with
          | error cause => exact ⟨[], List.nil_prefix, ⟨(List.append_nil _).symm, rfl, rfl⟩⟩
          | ok u => exact ⟨⟨rfl, rfl, rfl⟩, offer_ok hoffer⟩

/-! ## Reading -/

/-- A strip as it arrives. -/
structure Strip where
  firstRow : UInt32
  rows : UInt32
  pixels : Bounded UInt8 MAX_STRIP_BYTES

namespace Strip

def arrival (s : Strip) : Arrival := .message (.ok (.strip s.firstRow s.rows s.pixels))

def band (s : Strip) : Nat × Nat := (s.firstRow.toNat, s.rows.toNat)

def bytes (s : Strip) : Bytes := s.pixels.items

end Strip

/-- A canvas that was received: a header with the serial and the size, then the strips of the size
and nothing else in between, and then nothing that had arrived yet. -/
def Received (serial width height : UInt32) (inbound : List Arrival) (canvas : Canvas) : Prop :=
  ∃ (per : Nat) (strips : List Strip) (rest : List Arrival),
    rowsPerStrip width = some per ∧
    inbound = .message (.ok (.frameHeader serial width height)) :: (strips.map Strip.arrival ++ rest) ∧
    (tryRecvFrom rest).1 = none ∧
    strips.map Strip.band = bands per height.toNat 0 ∧
    (∀ s ∈ strips, s.bytes.length = s.rows.toNat * width.toNat * 4) ∧
    canvas = ⟨width, height, strips.flatMap Strip.bytes⟩ ∧
    canvas.pixels.length = width.toNat * height.toNat * 4

theorem stripsFromQueue_done {a : FrameAssembler} (h : a.expected.isNone = true) (inbound : List Arrival) :
    stripsFromQueue a inbound = (.ok a, inbound) := by
  cases inbound <;> simp only [stripsFromQueue, if_pos h]

theorem stripsFromQueue_ok : ∀ {inbound rest : List Arrival} {a a' : FrameAssembler}, 0 < a.perStrip →
    a.nextRow ≤ a.height.toNat → stripsFromQueue a inbound = (.ok a', rest) →
    ∃ strips : List Strip, inbound = strips.map Strip.arrival ++ rest ∧
      strips.map Strip.band = bands a.perStrip a.height.toNat a.nextRow ∧
      (∀ s ∈ strips, s.bytes.length = s.rows.toNat * a.width.toNat * 4) ∧
      a' = { a with pixels := a.pixels ++ strips.flatMap Strip.bytes, nextRow := a.height.toNat } ∧
      a'.pixels.length = a.pixels.length + (a.height.toNat - a.nextRow) * a.width.toNat * 4
  | inbound, rest, a, a', hper, hle, h => by
      by_cases hdone : a.expected.isNone = true
      · -- complete
        have hheight := Nat.le_antisymm (FrameAssembler.expected_isNone.mp hdone) hle
        have heq : a' = a ∧ rest = inbound := by
          rw [stripsFromQueue_done hdone] at h
          cases h
          exact ⟨rfl, rfl⟩
        obtain ⟨rfl, rfl⟩ := heq
        refine ⟨[], rfl, ?_, by simp, ?_, by rw [hheight]; simp⟩
        · rw [bands_of_le (Nat.le_of_eq hheight)]
          rfl
        · rw [hheight]
          simp
      · match inbound with
        | [] | .silence :: _ | .message (.error _) :: _ | .message (.ok (.ready _)) :: _
        | .message (.ok (.frameHeader _ _ _)) :: _ | .message (.ok (.failed _)) :: _ =>
            simp only [stripsFromQueue, if_neg hdone] at h
            cases h
        | .message (.ok (.strip firstRow rows pixels)) :: inbound =>
            simp only [stripsFromQueue, if_neg hdone] at h
            cases hpush : a.push firstRow rows pixels.items with
            | error e =>
                rw [hpush] at h
                cases h
            | ok next =>
                rw [hpush] at h
                obtain ⟨hlt, hband, hlen, hnext⟩ := FrameAssembler.push_eq_ok_iff.mp hpush
                have hrows : rows.toNat = min a.perStrip (a.height.toNat - a.nextRow) :=
                  congrArg Prod.snd hband
                have hfields : next.perStrip = a.perStrip ∧ next.height = a.height ∧ next.width = a.width ∧
                    next.nextRow = a.nextRow + rows.toNat ∧ next.pixels = a.pixels ++ pixels.items := by
                  rw [hnext]
                  exact ⟨rfl, rfl, rfl, rfl, rfl⟩
                obtain ⟨hper', hheight', hwidth', hrow', hpixels'⟩ := hfields
                obtain ⟨strips, hinbound, hbands, hlens, ha', hsize⟩ :=
                  @stripsFromQueue_ok inbound rest next a' (by omega) (by rw [hheight', hrow']; omega) h
                rw [hper', hheight', hrow', hrows] at hbands
                rw [hheight', hwidth', hrow', hpixels', List.length_append] at hsize
                refine ⟨⟨firstRow, rows, pixels⟩ :: strips, ?_, ?_, ?_, ?_, ?_⟩
                · rw [hinbound]
                  rfl
                · rw [List.map_cons, hbands, bands_of_lt hper hlt]
                  exact congrArg (· :: _) hband
                · rw [← hwidth']
                  exact List.forall_mem_cons.mpr ⟨by rw [hwidth']; exact hlen, hlens⟩
                · rw [ha', hnext, List.flatMap_cons, ← List.append_assoc]
                  rfl
                · have hlen' : pixels.items.length = rows.toNat * a.width.toNat * 4 := hlen
                  have hsum : a.height.toNat - a.nextRow =
                      rows.toNat + (a.height.toNat - (a.nextRow + rows.toNat)) := by omega
                  rw [hsize, hlen', hsum, Nat.add_mul, Nat.add_mul]
                  omega

theorem ensure_run (ok : Bool) (why : String) (t : Talk) :
    ensure ok why t = if ok then .ok ⟨⟩ t else .error (.protocol why) t := by
  cases ok <;> rfl

/-- What only reads leaves everything that was written as it is. -/
abbrev Reads {α : Type} (m : TalkM α) : Prop := Follows (fun _ => True) (Wrote []) m

theorem composes_wrote : Composes (fun _ : Talk => True) (Wrote []) where
  refl := .refl
  trans h h' := h.trans h'
  keeps _ _ := trivial

theorem Wrote.of_inbound (t : Talk) (rest : List Arrival) : Wrote [] t { t with inbound := rest } :=
  ⟨(List.append_nil _).symm, rfl, rfl⟩

theorem reads_recv : Reads recv := by
  intro t _
  unfold recv
  split <;> exact .of_inbound t _

theorem reads_ensure (ok : Bool) (why : String) : Reads (ensure ok why) := by
  intro t _
  cases ok <;> exact .refl t

theorem reads_expectHeader (serial width height : UInt32) : Reads (expectHeader serial width height) := by
  refine Follows.bind composes_wrote reads_recv fun m => ?_
  split
  · exact Follows.bind composes_wrote (reads_ensure _ _) fun _ => reads_ensure _ _
  · exact follows_throw composes_wrote _
  · exact follows_throw composes_wrote _

theorem reads_receiveStrips (a : FrameAssembler) : Reads (receiveStrips a) := by
  intro t _
  unfold receiveStrips
  split <;> exact .of_inbound t _

theorem reads_expectQuiet : Reads expectQuiet := by
  intro t _
  unfold expectQuiet
  split <;> exact .of_inbound t _

theorem reads_receiveFrame (serial width height : UInt32) : Reads (receiveFrame serial width height) := by
  refine Follows.bind composes_wrote (reads_expectHeader serial width height) fun _ => ?_
  split
  · exact follows_throw composes_wrote _
  · refine Follows.bind composes_wrote (reads_receiveStrips _) fun a => ?_
    refine Follows.bind composes_wrote reads_expectQuiet fun _ => ?_
    split
    · exact follows_throw composes_wrote _
    · exact follows_pure composes_wrote _

theorem expectHeader_ok {serial height : UInt32} (h : expectHeader serial width height t = .ok ⟨⟩ t') :
    ∃ rest, t.inbound = .message (.ok (.frameHeader serial width height)) :: rest ∧
      t' = { t with inbound := rest } := by
  unfold expectHeader at h
  rw [run_bind] at h
  unfold recv recvFrom at h
  match hin : t.inbound with
  | [] =>
      rw [hin] at h
      cases h
  | .silence :: rest =>
      rw [hin] at h
      cases h
  | .message (.error e) :: rest =>
      rw [hin] at h
      cases h
  | .message (.ok (.ready abi)) :: rest =>
      rw [hin] at h
      cases h
  | .message (.ok (.strip first rows pixels)) :: rest =>
      rw [hin] at h
      cases h
  | .message (.ok (.failed why)) :: rest =>
      rw [hin] at h
      cases h
  | .message (.ok (.frameHeader echoed w hh)) :: rest =>
      rw [hin] at h
      simp only [run_bind, ensure_run] at h
      by_cases hecho : decide (echoed = serial) = true
      · by_cases hsize : decide ((w, hh) = (width, height)) = true
        · simp only [if_pos hecho, if_pos hsize] at h
          have heq := of_decide_eq_true hsize
          rw [Prod.mk.injEq] at heq
          cases h
          rw [of_decide_eq_true hecho, heq.1, heq.2]
          exact ⟨rest, rfl, rfl⟩
        · simp only [if_pos hecho, if_neg hsize] at h
          cases h
      · simp only [if_neg hecho] at h
        cases h

/-- A frame that was received is what its messages carried. -/
theorem receiveFrame_ok {serial height : UInt32} {canvas : Canvas}
    (h : receiveFrame serial width height t = .ok canvas t') :
    Received serial width height t.inbound canvas := by
  unfold receiveFrame at h
  rw [run_bind] at h
  cases hheader : expectHeader serial width height t with
  | error cause u =>
      rw [hheader] at h
      cases h
  | ok x u =>
      rw [hheader] at h
      obtain ⟨rest, hinbound, rfl⟩ := expectHeader_ok hheader
      dsimp only at h
      cases hnew : FrameAssembler.new width height with
      | error e =>
          rw [hnew] at h
          cases h
      | ok a =>
          obtain ⟨-, per, hper, rfl⟩ := FrameAssembler.new_eq_ok hnew
          rw [hnew] at h
          simp only [run_bind, receiveStrips] at h
          cases hstrips : stripsFromQueue ⟨width, height, per, 0, []⟩ rest with
          | mk outcome rest' =>
              rw [hstrips] at h
              cases outcome with
              | error cause => cases h
              | ok a' =>
                  obtain ⟨strips, hrest, hbands, hlens, ha', hsize⟩ :=
                    stripsFromQueue_ok (rowsPerStrip_pos hper) (Nat.zero_le _) hstrips
                  simp only [expectQuiet] at h
                  cases hquiet : tryRecvFrom rest' with
                  | mk found rest'' =>
                      rw [hquiet] at h
                      cases found with
                      | some m => cases h
                      | none =>
                          dsimp only at h
                          rw [ha', FrameAssembler.finish, if_neg (by simp)] at h
                          cases h
                          refine ⟨per, strips, rest', hper, by rw [hinbound, hrest], by rw [hquiet], hbands, hlens,
                            by simp, ?_⟩
                          rw [ha'] at hsize
                          simpa [Nat.mul_comm height.toNat] using hsize

/-! ## Fonts -/

/-- The font that a request is about. -/
def fontOf : GpuRequest → Option UInt32
  | .fontBegin font _ => some font
  | .fontChunk font _ _ => some font
  | _ => none

/-- The requests about fonts among these. -/
def fontMessages (queued : List GpuRequest) : List GpuRequest := queued.filter fun r => (fontOf r).isSome

/-- What it takes to send a registered font. -/
def requestsOf (registry : List RegisteredFont) (id : UInt32) : List GpuRequest :=
  ((registry.find? fun font => font.id = id).bind fun font => fontRequests id font.bytes).getD []

theorem fontOf_of_mem {id : UInt32} {bytes : Bytes} {requests : List GpuRequest}
    (h : fontRequests id bytes = some requests) : ∀ r ∈ requests, fontOf r = some id := by
  unfold fontRequests at h
  split at h
  · cases h
  · cases h
    refine List.forall_mem_cons.mpr ⟨rfl, fun r hr => ?_⟩
    obtain ⟨⟨piece, i⟩, -, hchunk⟩ := List.mem_filterMap.mp hr
    simp only [chunkRequest] at hchunk
    split_ifs at hchunk
    cases hchunk
    rfl

theorem fontOf_of_mem_requestsOf {registry : List RegisteredFont} {id : UInt32} :
    ∀ r ∈ requestsOf registry id, fontOf r = some id := by
  unfold requestsOf
  cases registry.find? fun font => font.id = id with
  | none => simp
  | some font =>
      dsimp only [Option.bind_some]
      cases hrequests : fontRequests id font.bytes with
      | none => simp
      | some requests => exact fontOf_of_mem hrequests

theorem fontMessages_append (l l' : List GpuRequest) :
    fontMessages (l ++ l') = fontMessages l ++ fontMessages l' := List.filter_append l l'

theorem fontMessages_of_font (h : ∀ r ∈ l, (fontOf r).isSome = true) :
    fontMessages l = l := List.filter_eq_self.mpr h

theorem fontMessages_of_other (h : ∀ r ∈ l, fontOf r = none) : fontMessages l = [] :=
  List.filter_eq_nil_iff.mpr fun r hr => by simp [h r hr]

section

variable (registry : List RegisteredFont) (bad : List UInt32)

/-- The process was written the fonts that it is recorded to have, each once, and none of the bad ones. -/
structure Told (p : GpuProcess) : Prop where
  nodup : p.sent.Nodup
  registered : ∀ id ∈ p.sent, (registry.find? fun font => font.id = id).isSome = true
  allowed : ∀ id ∈ p.sent, id ∉ bad
  messages : fontMessages p.queued = p.sent.flatMap (requestsOf registry)

/-- The same of what was written before an exchange failed, which may end within a font. -/
def ToldPart (queued : List GpuRequest) : Prop :=
  ∃ ids : List UInt32, ids.Nodup ∧ (∀ id ∈ ids, id ∉ bad) ∧
    fontMessages queued <+: ids.flatMap (requestsOf registry)

variable {registry bad}

theorem Told.part {p : GpuProcess} (h : Told registry bad p) : ToldPart registry bad p.queued :=
  ⟨p.sent, h.nodup, h.allowed, by rw [h.messages]⟩

/-- What is written of a frame is about no font. -/
theorem Told.wrote (h : Told registry bad t.toGpuProcess) (hw : Wrote l t t')
    (hl : ∀ r ∈ l, fontOf r = none) : Told registry bad t'.toGpuProcess := by
  refine ⟨by rw [hw.sent]; exact h.nodup, by rw [hw.sent]; exact h.registered, by rw [hw.sent]; exact h.allowed, ?_⟩
  rw [hw.queued, hw.sent, fontMessages_append, fontMessages_of_other hl, List.append_nil, h.messages]

/-- A part of an exchange that keeps the record of fonts true, and waits for nothing. -/
def Tells (registry : List RegisteredFont) (bad : List UInt32) (m : TalkM PUnit) : Prop :=
  ∀ t, Told registry bad t.toGpuProcess → match m t with
    | .ok _ t' => Told registry bad t'.toGpuProcess ∧ Quiet t t'
    | .error _ t' => ToldPart registry bad t'.queued

theorem Tells.bind {m m' : TalkM PUnit} (h : Tells registry bad m) (h' : Tells registry bad m') :
    Tells registry bad (m >>= fun _ => m') := by
  intro t ht
  have hm := h t ht
  rw [run_bind]
  cases hrun : m t with
  | error cause t' =>
      rw [hrun] at hm
      exact hm
  | ok u t' =>
      rw [hrun] at hm
      have hm' := h' t' hm.1
      dsimp only
      cases hrun' : m' t' with
      | error cause t'' =>
          rw [hrun'] at hm'
          exact hm'
      | ok u t'' =>
          rw [hrun'] at hm'
          exact ⟨hm'.1, hm.2.trans hm'.2⟩

theorem tells_forM {α : Type} {f : α → TalkM PUnit} {l : List α} (h : ∀ a ∈ l, Tells registry bad (f a)) :
    Tells registry bad (l.forM f) := by
  induction l with
  | nil => exact fun t ht => ⟨ht, .refl t⟩
  | cons a l ih => exact (h a List.mem_cons_self).bind (ih fun b hb => h b (List.mem_cons_of_mem _ hb))

/-- A font that is registered later changes nothing of those that were sent. -/
theorem Told.register {p : GpuProcess} (h : Told registry bad p) (font : RegisteredFont) :
    Told (registry ++ [font]) bad p := by
  have hfind : ∀ id ∈ p.sent, (registry ++ [font]).find? (fun font => font.id = id) =
      registry.find? fun font => font.id = id := by
    intro id hid
    rw [List.find?_append, Option.or_of_isSome (h.registered id hid)]
  refine ⟨h.nodup, fun id hid => by rw [hfind id hid]; exact h.registered id hid, h.allowed, ?_⟩
  rw [h.messages]
  exact List.flatMap_congr fun id hid => by rw [requestsOf, requestsOf, hfind id hid]

/-- What writes a part of a frame leaves the record as it is. -/
theorem Writes.tells {m : TalkM PUnit} (h : Writes l m) (hl : ∀ r ∈ l, fontOf r = none) :
    Tells registry bad m := by
  intro t ht
  rcases h.cases t with ⟨t', hm, hwrote, hquiet⟩ | ⟨cause, t', part, hm, hpart, hwrote⟩
  · rw [hm]
    exact ⟨ht.wrote hwrote hl, hquiet⟩
  · rw [hm]
    exact (ht.wrote hwrote fun r hr => hl r (hpart.subset hr)).part

theorem tells_sendFont {id : UInt32} (hid : id ∉ bad) : Tells registry bad (sendFont registry id) := by
  intro t ht
  unfold sendFont
  rw [run_bind, run_get]
  dsimp only
  by_cases hsent : id ∈ t.sent
  · rw [if_pos hsent]
    exact ⟨ht, .refl t⟩
  · rw [if_neg hsent]
    cases hfind : registry.find? fun font => font.id = id with
    | none => exact ht.part
    | some font =>
        dsimp only
        cases hrequests : fontRequests id font.bytes with
        | none => exact ht.part
        | some requests =>
            have hof : requestsOf registry id = requests := by
              rw [requestsOf, hfind, Option.bind_some, hrequests, Option.getD_some]
            have hfont : ∀ r ∈ requests, (fontOf r).isSome = true := fun r hr => by
              rw [fontOf_of_mem hrequests r hr]
              rfl
            have hnodup : (t.sent ++ [id]).Nodup := List.nodup_append.mpr
              ⟨ht.nodup, List.nodup_singleton id, by
                intro a ha b hb
                rw [List.mem_singleton.mp hb]
                rintro rfl
                exact hsent ha⟩
            have hregistered : ∀ i ∈ t.sent ++ [id], (registry.find? fun font => font.id = i).isSome = true := by
              intro i hi
              rcases List.mem_append.mp hi with hi | hi
              · exact ht.registered i hi
              · rw [List.mem_singleton.mp hi, hfind]
                rfl
            have hallowed : ∀ i ∈ t.sent ++ [id], i ∉ bad := by
              intro i hi
              rcases List.mem_append.mp hi with hi | hi
              · exact ht.allowed i hi
              · rw [List.mem_singleton.mp hi]
                exact hid
            have hmsgs : ∀ part, part <+: requests →
                fontMessages (t.queued ++ part) = t.sent.flatMap (requestsOf registry) ++ part := by
              intro part hpart
              rw [fontMessages_append, ht.messages, fontMessages_of_font fun r hr => hfont r (hpart.subset hr)]
            have hwrites : Writes requests (requests.forM send) := by
              have h := writes_forM (f := send) (g := fun r => [r]) (l := requests) fun r _ => writes_send r
              rwa [List.flatMap_singleton'] at h
            dsimp only
            rw [run_bind]
            rcases hwrites.cases t with ⟨t', hm, hwrote, hquiet⟩ | ⟨cause, t', part, hm, hpart, hwrote⟩
            · rw [hm]
              refine ⟨⟨by rw [← hwrote.sent] at hnodup; exact hnodup, by rw [← hwrote.sent] at hregistered; exact hregistered,
                by rw [← hwrote.sent] at hallowed; exact hallowed, ?_⟩, hquiet⟩
              dsimp only
              rw [hwrote.queued, hwrote.sent, hmsgs _ List.prefix_rfl, List.flatMap_append, List.flatMap_cons,
                List.flatMap_nil, List.append_nil, hof]
            · rw [hm]
              refine ⟨t.sent ++ [id], hnodup, hallowed, ?_⟩
              rw [hwrote.queued, hmsgs _ hpart, List.flatMap_append, List.flatMap_cons, List.flatMap_nil,
                List.append_nil, hof, List.prefix_append_right_inj]
              exact hpart

theorem tells_send {request : GpuRequest} (h : fontOf request = none) : Tells registry bad (send request) :=
  (writes_send request).tells fun r hr => by rw [List.mem_singleton.mp hr, h]

theorem tells_throw (cause : Cause) : Tells registry bad (throw cause) := fun _ ht => ht.part

theorem tells_ensure (ok : Bool) (why : String) : Tells registry bad (ensure ok why) := by
  intro t ht
  cases ok with
  | false => exact ht.part
  | true => exact ⟨ht, .refl t⟩

theorem tells_sendFrame (frame : FrameRequest) : Tells registry bad (sendFrame frame) := by
  refine (tells_send rfl).bind (Tells.bind ?_ (Tells.bind ?_ (tells_send rfl)))
  · refine tells_forM fun glyphs _ => ?_
    unfold sendGlyphs
    dsimp only
    split
    · exact tells_send rfl
    · exact tells_throw _
  · refine tells_forM fun items _ => ?_
    unfold sendItems
    dsimp only
    split
    · exact tells_send rfl
    · exact tells_throw _

/-- What an exchange comes to: a frame that was received, with nothing before it, or a failure; and in
either case a record of fonts that is true. -/
theorem exchange_cases {frame : FrameRequest} (hneeded : ∀ id ∈ fontsNeeded frame.list, id ∉ bad) {t : Talk}
    (ht : Told registry bad t.toGpuProcess) :
    (∃ canvas t' n inbound, exchange registry frame t = .ok canvas t' ∧ Told registry bad t'.toGpuProcess ∧
        t.inbound = List.replicate n .silence ++ inbound ∧
        Received frame.serial frame.width frame.height inbound canvas) ∨
      ∃ cause t', exchange registry frame t = .error cause t' ∧ ToldPart registry bad t'.queued := by
  have hsends : Tells registry bad (do
      ensure (frame.list.items.length < 2 ^ 32) "too many items"
      ensure (frame.list.glyphs.length < 2 ^ 32) "too many glyphs"
      sendFonts registry frame.list
      sendFrame frame) :=
    (tells_ensure _ _).bind <| (tells_ensure _ _).bind <|
      (tells_forM fun id hid => tells_sendFont (hneeded id hid)).bind (tells_sendFrame frame)
  have hsplit : exchange registry frame = (do
      (do
        ensure (frame.list.items.length < 2 ^ 32) "too many items"
        ensure (frame.list.glyphs.length < 2 ^ 32) "too many glyphs"
        sendFonts registry frame.list
        sendFrame frame)
      receiveFrame frame.serial frame.width frame.height) := by
    simp only [exchange, bind_assoc]
  rw [hsplit, run_bind]
  have hrun := hsends t ht
  revert hrun
  generalize (do
      ensure (frame.list.items.length < 2 ^ 32) "too many items"
      ensure (frame.list.glyphs.length < 2 ^ 32) "too many glyphs"
      sendFonts registry frame.list
      sendFrame frame : TalkM PUnit) t = outcome
  intro hrun
  cases outcome with
  | error cause t' => exact .inr ⟨cause, t', rfl, hrun⟩
  | ok u t' =>
      obtain ⟨htold, n, hn⟩ := hrun
      have hwrote := reads_receiveFrame frame.serial frame.width frame.height t' trivial
      dsimp only
      cases hreceive : receiveFrame frame.serial frame.width frame.height t' with
      | ok canvas t'' =>
          rw [hreceive] at hwrote
          exact .inl ⟨canvas, t'', n, t'.inbound, rfl, htold.wrote hwrote (by simp), hn, receiveFrame_ok hreceive⟩
      | error cause t'' =>
          rw [hreceive] at hwrote
          exact .inr ⟨cause, t'', rfl, (htold.wrote hwrote (by simp)).part⟩

end

end Pelorus.Gpu
