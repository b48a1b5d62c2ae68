import Pelorus.Script.Termination

/-
  Script/Timers.lean --- the timer table and the heap agree.

  THE INVARIANT (`Wf k`, after `k` timers were added).  Every pending timer has its
  arming in the heap; an arming whose timer is still in the table is the one of that
  timer; no id has two armings.  So the stale armings are exactly those of timers that
  are gone, and `stale` bounds how many of them there are.

  Every call keeps the invariant, as long as an added timer gets a new id
  (`step_wf`).
-/
set_option autoImplicit false

namespace Pelorus.Script

open Lib

universe u v

variable {M : Type u} {P : Type v}

/-! ## The order of the heap -/

theorem Arming.le_iff {a b : Arming} : a.le b ↔ a.due.toNat < b.due.toNat ∨
    a.due.toNat = b.due.toNat ∧ (a.seq.toNat < b.seq.toNat ∨
      a.seq.toNat = b.seq.toNat ∧ a.id.toNat ≤ b.id.toNat) := by
  simp only [Arming.le, UInt64.lt_iff_toNat_lt, UInt64.le_iff_toNat_le, ← UInt64.toNat_inj]

instance : Std.Total Arming.le := ⟨fun a b => by
  rw [Arming.le_iff, Arming.le_iff]
  omega⟩

instance : IsTrans Arming Arming.le := ⟨fun a b c hab hbc => by
  rw [Arming.le_iff] at *
  omega⟩

namespace LoopCore

/-! ## The invariant -/

/-- The table and the heap agree, after `k` timers were added. -/
structure Wf (k : Nat) (s : LoopCore M P) : Prop where
  /-- The heap is in order. -/
  sorted : s.heap.Pairwise Arming.le
  /-- No timer has two armings. -/
  distinct : (s.heap.map Arming.id).Nodup
  /-- A pending timer has its arming in the heap. -/
  armed : ∀ id e due seq, s.timers.lookup id = some e → e.state = .pending due seq →
    (⟨due, seq, id⟩ : Arming) ∈ s.heap
  /-- An arming of a timer in the table is the one of this timer. -/
  live : ∀ a ∈ s.heap, ∀ e, s.timers.lookup a.id = some e → e.state = .pending a.due a.seq
  heapIds : ∀ a ∈ s.heap, a.id.toNat ≤ k
  tableIds : ∀ id e, s.timers.lookup id = some e → id.toNat ≤ k
  nextId : s.terminated = none → s.nextId.toNat = min (k + 1) (2 ^ 64 - 1)
  /-- A terminated loop has no armings. -/
  wiped : s.terminated ≠ none → s.heap = []
  /-- There are not many stale armings. -/
  stale : s.heap.countP (fun a => (s.timers.lookup a.id).isNone) ≤ 2 * s.caps.timers + 1024

theorem wf_new (caps : Caps) : (new caps : LoopCore M P).Wf 0 where
  sorted := List.Pairwise.nil
  distinct := List.nodup_nil
  armed := fun id e due seq h => by simp [new] at h
  live := fun a ha => by simp [new] at ha
  heapIds := fun a ha => by simp [new] at ha
  tableIds := fun id e h => by simp [new] at h
  nextId := fun _ => rfl
  wiped := fun _ => rfl
  stale := Nat.zero_le _

variable {k : Nat}
variable {s' : LoopCore M P} {k' : Nat}

theorem Wf.frame {s : LoopCore M P} (h : s.Wf k) (htimers : s'.timers = s.timers)
    (hheap : s'.heap = s.heap) (hcaps : s'.caps = s.caps) (hid : s'.nextId = s.nextId)
    (hterm : s'.terminated = s.terminated) : s'.Wf k := by
  constructor
  · rw [hheap]
    exact h.sorted
  · rw [hheap]
    exact h.distinct
  · rw [htimers, hheap]
    exact h.armed
  · rw [htimers, hheap]
    exact h.live
  · rw [hheap]
    exact h.heapIds
  · rw [htimers]
    exact h.tableIds
  · rw [hterm, hid]
    exact h.nextId
  · rw [hterm, hheap]
    exact h.wiped
  · rw [htimers, hheap, hcaps]
    exact h.stale

variable {s : LoopCore M P}

/-- A loop without timers and armings. -/
theorem wf_empty (htimers : s.timers = ∅) (hheap : s.heap = [])
    (hid : s.terminated = none → s.nextId.toNat = min (k + 1) (2 ^ 64 - 1)) : s.Wf k where
  sorted := by rw [hheap]; exact List.Pairwise.nil
  distinct := by rw [hheap]; exact List.nodup_nil
  armed := fun id e due seq h => by rw [htimers] at h; simp at h
  live := fun a ha => by rw [hheap] at ha; simp at ha
  heapIds := fun a ha => by rw [hheap] at ha; simp at ha
  tableIds := fun id e h => by rw [htimers] at h; simp at h
  nextId := hid
  wiped := fun _ => hheap
  stale := by rw [hheap]; exact Nat.zero_le _

theorem Wf.terminate (h : s.Wf k) (hk : s.terminated ≠ none → k' = k)
    (reason : TerminateReason) : (s.terminate reason).Wf k' := by
  unfold LoopCore.terminate
  split
  · rename_i hsome
    have hne : s.terminated ≠ none := by
      intro hnone
      rw [hnone] at hsome
      cases hsome
    rw [hk hne]
    exact h
  · exact wf_empty rfl rfl fun hnone => by cases hnone

variable {id : TimerId} {e : Entry P} {a : Arming}

theorem Wf.not_mem_heap (h : s.Wf k) (hid : s.timers.lookup id = some e)
    (hstate : ∀ due seq, e.state ≠ .pending due seq) :
    id ∉ s.heap.map Arming.id := by
  intro hmem
  obtain ⟨a, ha, rfl⟩ := List.mem_map.mp hmem
  exact hstate _ _ (h.live a ha e hid)

/-! ## Elementary changes -/

theorem lookup_insert_eq (m : Map TimerId (Entry P)) (id id' : TimerId) (e : Entry P) :
    (m.insert id e).lookup id' = if id' = id then some e else m.lookup id' := by
  split
  · rename_i h
    rw [h]
    exact AList.lookup_insert m
  · rename_i h
    exact AList.lookup_insert_ne h

theorem lookup_erase_eq (m : Map TimerId (Entry P)) (id id' : TimerId) :
    (m.erase id).lookup id' = if id' = id then none else m.lookup id' := by
  split
  · rename_i h
    rw [h]
    exact AList.lookup_erase id m
  · rename_i h
    exact AList.lookup_erase_ne h

/-- A change of the table at an id without an arming leaves the stale armings as they are. -/
theorem countP_stale_congr {heap : List Arming} {m m' : Map TimerId (Entry P)} {id : TimerId}
    (hout : id ∉ heap.map Arming.id) (hsame : ∀ id', id' ≠ id → m'.lookup id' = m.lookup id') :
    heap.countP (fun a => (m'.lookup a.id).isNone) = heap.countP fun a => (m.lookup a.id).isNone := by
  refine List.countP_congr fun a ha => ?_
  rw [hsame a.id fun heq => hout (heq ▸ List.mem_map.mpr ⟨a, ha, rfl⟩)]

/-- A timer without an arming is armed: its entry is pending, and its arming is pushed. -/
theorem Wf.arm (h : s.Wf k) {due seq : UInt64} (hout : id ∉ s.heap.map Arming.id)
    (hstate : e.state = .pending due seq) (hk : k ≤ k') (hid : id.toNat ≤ k')
    (htimers : s'.timers = s.timers.insert id e)
    (hheap : s'.heap = s.heap.orderedInsert Arming.le ⟨due, seq, id⟩) (hcaps : s'.caps = s.caps)
    (hrun : s'.terminated = none) (hnext : s'.nextId.toNat = min (k' + 1) (2 ^ 64 - 1)) :
    s'.Wf k' := by
  have hperm : s'.heap.Perm (⟨due, seq, id⟩ :: s.heap) := hheap ▸ List.perm_orderedInsert _ _ _
  have hmem : ∀ a, a ∈ s'.heap ↔ a = ⟨due, seq, id⟩ ∨ a ∈ s.heap := fun a => by
    rw [hperm.mem_iff, List.mem_cons]
  have hlookup : ∀ id', s'.timers.lookup id' = if id' = id then some e else s.timers.lookup id' :=
    fun id' => by rw [htimers, lookup_insert_eq]
  have hother : ∀ a ∈ s.heap, a.id ≠ id := fun a ha heq =>
    hout (heq ▸ List.mem_map.mpr ⟨a, ha, rfl⟩)
  constructor
  · rw [hheap]
    exact h.sorted.orderedInsert _ _
  · refine (hperm.map Arming.id).nodup_iff.mpr ?_
    exact List.nodup_cons.mpr ⟨hout, h.distinct⟩
  · intro id' e' due' seq' he' hs'
    rw [hlookup] at he'
    rw [hmem]
    split at he'
    · rename_i heq
      cases he'
      rw [hstate] at hs'
      cases hs'
      exact Or.inl (by rw [heq])
    · exact Or.inr (h.armed id' e' due' seq' he' hs')
  · intro a ha e' he'
    rw [hlookup] at he'
    rcases (hmem a).mp ha with rfl | ha
    · rw [if_pos rfl] at he'
      cases he'
      exact hstate
    · rw [if_neg (hother a ha)] at he'
      exact h.live a ha e' he'
  · intro a ha
    rcases (hmem a).mp ha with rfl | ha
    · exact hid
    · exact Nat.le_trans (h.heapIds a ha) hk
  · intro id' e' he'
    rw [hlookup] at he'
    split at he'
    · rename_i heq
      rw [heq]
      exact hid
    · exact Nat.le_trans (h.tableIds id' e' he') hk
  · exact fun _ => hnext
  · exact fun hne => absurd hrun hne
  · rw [hperm.countP_eq, List.countP_cons, hcaps]
    have hnew : (s'.timers.lookup id).isNone = false := by rw [hlookup, if_pos rfl]; rfl
    have hold := @countP_stale_congr P s.heap s.timers s'.timers id hout fun id' hne => by
      rw [hlookup, if_neg hne]
    rw [hold]
    simpa [hnew] using h.stale

/-- A timer without an arming changes to a state without one, or goes. -/
theorem Wf.park (h : s.Wf k) (hout : id ∉ s.heap.map Arming.id)
    (hself : ∀ e, s'.timers.lookup id = some e →
      id.toNat ≤ k ∧ ∀ due seq, e.state ≠ .pending due seq)
    (hsame : ∀ id', id' ≠ id → s'.timers.lookup id' = s.timers.lookup id') (hheap : s'.heap = s.heap)
    (hcaps : s'.caps = s.caps) (hnext : s'.nextId = s.nextId) (hterm : s'.terminated = s.terminated) :
    s'.Wf k := by
  have hother : ∀ a ∈ s.heap, a.id ≠ id := fun a ha heq =>
    hout (heq ▸ List.mem_map.mpr ⟨a, ha, rfl⟩)
  constructor
  · rw [hheap]
    exact h.sorted
  · rw [hheap]
    exact h.distinct
  · intro id' e due seq he hs
    rw [hheap]
    by_cases heq : id' = id
    · subst heq
      exact absurd hs ((hself e he).2 due seq)
    · exact h.armed id' e due seq (hsame id' heq ▸ he) hs
  · intro a ha e he
    rw [hheap] at ha
    rw [hsame a.id (hother a ha)] at he
    exact h.live a ha e he
  · rw [hheap]
    exact h.heapIds
  · intro id' e he
    by_cases heq : id' = id
    · subst heq
      exact (hself e he).1
    · exact h.tableIds id' e (hsame id' heq ▸ he)
  · rw [hterm, hnext]
    exact h.nextId
  · rw [hterm, hheap]
    exact h.wiped
  · rw [hheap, hcaps, countP_stale_congr hout hsame]
    exact h.stale

/-- Stale armings may be dropped. -/
theorem Wf.shrink (h : s.Wf k) {heap : List Arming}
    (hsub : List.Sublist heap s.heap)
    (hstale : ∀ a ∈ s.heap, a ∉ heap → s.timers.lookup a.id = none) :
    ({ s with heap := heap } : LoopCore M P).Wf k where
  sorted := h.sorted.sublist hsub
  distinct := h.distinct.sublist (hsub.map _)
  armed := fun id e due seq he hs => by
    by_contra hnot
    have hnone := hstale _ (h.armed id e due seq he hs) hnot
    rw [he] at hnone
    cases hnone
  live := fun a ha => h.live a (hsub.subset ha)
  heapIds := fun a ha => h.heapIds a (hsub.subset ha)
  tableIds := h.tableIds
  nextId := h.nextId
  wiped := fun hne => by
    have hnil := h.wiped hne
    rw [hnil] at hsub
    exact List.sublist_nil.mp hsub
  stale := Nat.le_trans (hsub.countP_le) h.stale

/-- An arming in the heap that is not live is the arming of a timer that is gone. -/
theorem Wf.lookup_of_not_live (h : s.Wf k) (ha : a ∈ s.heap) (hlive : s.isLiveArming a = false) :
    s.timers.lookup a.id = none := by
  cases he : s.timers.lookup a.id with
  | none => rfl
  | some e =>
      have hstate := h.live a ha e he
      simp [isLiveArming, he, hstate] at hlive

theorem Wf.shrink_head (h : s.Wf k) {rest : List Arming} (hheap : s.heap = a :: rest)
    (hstale : s.isLiveArming a = false) :
    ({ s with heap := rest } : LoopCore M P).Wf k := by
  refine h.shrink ?_ fun b hb hnot => ?_
  · rw [hheap]
    exact List.sublist_cons_self a rest
  · rw [hheap] at hb
    rcases List.mem_cons.mp hb with rfl | hb
    · refine h.lookup_of_not_live ?_ hstale
      rw [hheap]
      exact List.mem_cons_self
    · exact absurd hb hnot

/-! ## Calls -/

theorem Wf.promoteOne (h : s.Wf k) {rest : List Arming} (hheap : s.heap = a :: rest)
    (he : s.timers.lookup a.id = some e) :
    (s.promoteOne a.id rest).Wf k := by
  have hsame := s.promoteOne_eq a.id rest
  have hlookup : ∀ id', (s.promoteOne a.id rest).timers.lookup id' =
      if id' = a.id then some { e with state := .queued } else s.timers.lookup id' := by
    intro id'
    rw [lookup_promoteOne, he]
    rfl
  have hdistinct := h.distinct
  have hsorted := h.sorted
  have hstale := h.stale
  rw [hheap] at hdistinct hsorted hstale
  obtain ⟨hout, hdistinct⟩ := List.nodup_cons.mp hdistinct
  have hother : ∀ b ∈ rest, b.id ≠ a.id := fun b hb heq =>
    hout (heq ▸ List.mem_map.mpr ⟨b, hb, rfl⟩)
  have hin : ∀ b ∈ rest, b ∈ s.heap := fun b hb => by rw [hheap]; exact List.mem_cons_of_mem _ hb
  have hrest : (s.promoteOne a.id rest).heap = rest := by rw [hsame]
  have hcaps : (s.promoteOne a.id rest).caps = s.caps := by rw [hsame]
  have hterm : (s.promoteOne a.id rest).terminated = s.terminated := by rw [hsame]
  have hnext : (s.promoteOne a.id rest).nextId = s.nextId := by rw [hsame]
  constructor
  · rw [hrest]
    exact (List.pairwise_cons.mp hsorted).2
  · rw [hrest]
    exact hdistinct
  · intro id' e' due seq he' hs'
    rw [hlookup] at he'
    rw [hrest]
    split at he'
    · cases he'
      cases hs'
    · rename_i hne
      have hmem := h.armed id' e' due seq he' hs'
      rw [hheap] at hmem
      rcases List.mem_cons.mp hmem with heq | hmem
      · exact absurd (by rw [← heq]) hne
      · exact hmem
  · intro b hb e' he'
    rw [hrest] at hb
    rw [hlookup, if_neg (hother b hb)] at he'
    exact h.live b (hin b hb) e' he'
  · intro b hb
    rw [hrest] at hb
    exact h.heapIds b (hin b hb)
  · intro id' e' he'
    rw [hlookup] at he'
    split at he'
    · rename_i heq
      rw [heq]
      exact h.tableIds a.id e he
    · exact h.tableIds id' e' he'
  · rw [hterm, hnext]
    exact h.nextId
  · intro hne
    rw [hterm] at hne
    have hnil := h.wiped hne
    rw [hheap] at hnil
    cases hnil
  · have hcount := @countP_stale_congr P rest s.timers (s.promoteOne a.id rest).timers a.id hout
      fun id' hne => by rw [hlookup, if_neg hne]
    rw [hrest, hcaps, hcount]
    exact Nat.le_trans (List.sublist_cons_self a rest).countP_le hstale

theorem Wf.promoteLoop (now : UInt64) : ∀ (fuel : Nat) {k : Nat} {s : LoopCore M P}, s.Wf k →
    (promoteLoop now fuel s).Wf k
  | 0, _, _, h => h
  | fuel + 1, k, s, h => by
      rw [promoteLoop_succ]
      split
      · exact h
      · cases hheap : s.heap with
        | nil => exact h
        | cons a rest =>
            simp only
            split
            · rename_i hstale
              exact Wf.promoteLoop now fuel (h.shrink_head hheap hstale)
            · rename_i hlive
              split
              · exact h
              · cases he : s.timers.lookup a.id with
                | none => simp [isLiveArming, he] at hlive
                | some e => exact Wf.promoteLoop now fuel (h.promoteOne hheap he)

theorem mem_compactHeap : a ∈ s.compactHeap.heap ↔
    ∃ e, s.timers.lookup a.id = some e ∧ e.state = .pending a.due a.seq := by
  show a ∈ List.insertionSort _ _ ↔ _
  rw [List.mem_insertionSort, List.mem_filterMap]
  constructor
  · rintro ⟨⟨id, e⟩, hmem, harming⟩
    simp only [Entry.arming?] at harming
    split at harming
    · rename_i due seq hstate
      cases harming
      exact ⟨e, AList.mem_lookup_iff.mpr hmem, hstate⟩
    · cases harming
    · cases harming
  · rintro ⟨e, he, hstate⟩
    refine ⟨⟨a.id, e⟩, AList.mem_lookup_iff.mp he, ?_⟩
    simp [Entry.arming?, hstate]

theorem nodup_compactHeap (s : LoopCore M P) : (s.compactHeap.heap.map Arming.id).Nodup := by
  have hperm : s.compactHeap.heap.Perm (s.timers.entries.filterMap fun e => Entry.arming? e.1 e.2) :=
    List.perm_insertionSort _ _
  refine (hperm.map Arming.id).nodup_iff.mpr ?_
  have hsub : ∀ l : List (Sigma fun _ : TimerId => Entry P),
      List.Sublist ((l.filterMap fun e => Entry.arming? e.1 e.2).map Arming.id) l.keys := by
    intro l
    induction l with
    | nil => exact List.Sublist.refl _
    | cons e l ih =>
        rw [List.filterMap_cons]
        cases hstate : e.2.state with
        | pending due seq =>
            simp only [Entry.arming?, hstate]
            exact ih.cons_cons _
        | queued =>
            simp only [Entry.arming?, hstate]
            exact ih.trans (List.sublist_cons_self _ _)
        | running =>
            simp only [Entry.arming?, hstate]
            exact ih.trans (List.sublist_cons_self _ _)
  exact (hsub s.timers.entries).nodup s.timers.nodupKeys

theorem heapLimit_le (n : Nat) : heapLimit n ≤ 2 * n + 1024 := by
  unfold heapLimit
  omega

theorem lookup_of_erase {m : Map TimerId (Entry P)} {id' : TimerId}
    (h : (m.erase id).lookup id' = some e) : m.lookup id' = some e := by
  rw [lookup_erase_eq] at h
  split at h
  · cases h
  · exact h

/-- A timer is taken from the table, and the heap is short enough for what is left of it. -/
theorem Wf.cleared (h : s.Wf k) (hs : s.Within)
    (hshort : s.heap.length ≤ heapLimit (s.timers.erase id).keys.length) :
    ({ s with timers := s.timers.erase id } : LoopCore M P).Wf k where
  sorted := h.sorted
  distinct := h.distinct
  armed := fun id' e due seq he hstate => h.armed id' e due seq (lookup_of_erase he) hstate
  live := fun a ha e he => h.live a ha e (lookup_of_erase he)
  heapIds := h.heapIds
  tableIds := fun id' e he => h.tableIds id' e (lookup_of_erase he)
  nextId := h.nextId
  wiped := h.wiped
  stale := by
    have hlen := Nat.le_trans (length_keys_erase_le s.timers id) hs.timers
    have hlimit := heapLimit_le (s.timers.erase id).keys.length
    have hcount := @List.countP_le_length _ (fun a : Arming =>
      ((s.timers.erase id).lookup a.id).isNone) s.heap
    exact Nat.le_trans hcount (Nat.le_trans hshort (Nat.le_trans hlimit
      (Nat.add_le_add_right (Nat.mul_le_mul_left 2 hlen) 1024)))

/-- A timer is taken from the table, and the heap is the pending timers: none is stale. -/
theorem Wf.compacted (h : s.Wf k) (id : TimerId) :
    ({ s with timers := s.timers.erase id }.compactHeap : LoopCore M P).Wf k where
  sorted := List.pairwise_insertionSort _ _
  distinct := nodup_compactHeap _
  armed := fun id' e due seq he hstate => mem_compactHeap.mpr ⟨e, he, hstate⟩
  live := fun a ha e he => by
    obtain ⟨e', he', hstate⟩ := mem_compactHeap.mp ha
    cases he.symm.trans he'
    exact hstate
  heapIds := fun a ha => by
    obtain ⟨e, he, -⟩ := mem_compactHeap.mp ha
    exact h.tableIds a.id e (lookup_of_erase he)
  tableIds := fun id' e he => h.tableIds id' e (lookup_of_erase he)
  nextId := h.nextId
  wiped := fun hne => by
    refine List.eq_nil_iff_forall_not_mem.mpr fun a ha => ?_
    obtain ⟨e, he, hstate⟩ := mem_compactHeap.mp ha
    have hmem := h.armed a.id e a.due a.seq (lookup_of_erase he) hstate
    rw [h.wiped hne] at hmem
    exact absurd hmem List.not_mem_nil
  stale := by
    rw [List.countP_eq_zero.mpr]
    · exact Nat.zero_le _
    · intro a ha
      obtain ⟨e, he, -⟩ := mem_compactHeap.mp ha
      have he' : (s.timers.erase id).lookup a.id = some e := he
      show ¬ ((s.timers.erase id).lookup a.id).isNone = true
      rw [he']
      exact Bool.false_ne_true

theorem toNat_satAdd_one (n : UInt64) : (satAdd n 1).toNat = min (n.toNat + 1) (2 ^ 64 - 1) := by
  have hone : (1 : UInt64).toNat = 1 := rfl
  rw [satAdd, hone, UInt64.toNat_ofNat']
  omega

/-- A terminated loop has no armings, and gives out no ids. -/
theorem Wf.later (h : s.Wf k) (hk : k ≤ k')
    (hterm : s.terminated.isSome = true) : s.Wf k' :=
  { h with
    heapIds := fun a ha => Nat.le_trans (h.heapIds a ha) hk
    tableIds := fun id e he => Nat.le_trans (h.tableIds id e he) hk
    nextId := fun hnone => by
      rw [hnone] at hterm
      cases hterm }

theorem Wf.added (h : s.Wf k) (hk : k + 1 ≤ 2 ^ 64 - 1) (hrun : s.terminated = none) {due : UInt64}
    (hstate : e.state = .pending due s.nextSeq) :
    ({ s with
      nextId := satAdd s.nextId 1
      nextSeq := satAdd s.nextSeq 1
      timers := s.timers.insert s.nextId e
      heap := s.heap.orderedInsert Arming.le ⟨due, s.nextSeq, s.nextId⟩ } :
      LoopCore M P).Wf (k + 1) := by
  have hid : s.nextId.toNat = k + 1 := by
    rw [h.nextId hrun]
    omega
  have hout : s.nextId ∉ s.heap.map Arming.id := by
    intro hmem
    obtain ⟨a, ha, heq⟩ := List.mem_map.mp hmem
    have hle := h.heapIds a ha
    rw [heq, hid] at hle
    omega
  refine h.arm hout hstate (Nat.le_succ k) (Nat.le_of_eq hid) rfl rfl rfl hrun ?_
  show (satAdd s.nextId 1).toNat = min (k + 1 + 1) (2 ^ 64 - 1)
  rw [toNat_satAdd_one, hid]

theorem Wf.not_armed (h : s.Wf k) (he : s.timers.lookup id = some e)
    (hstate : e.state = .queued ∨ e.state = .running) :
    id ∉ s.heap.map Arming.id :=
  h.not_mem_heap he fun due seq heq => by
    rw [heq] at hstate
    rcases hstate with hqueued | hrunning
    · cases hqueued
    · cases hrunning

end LoopCore

/-- The call adds a timer. -/
def Op.isAdd : Op M P → Bool
  | .addTimer _ _ _ _ => true
  | _ => false

/-- How many timers a call adds. -/
def Op.adds (op : Op M P) : Nat := if op.isAdd then 1 else 0

namespace LoopCore

variable {k : Nat} {s : LoopCore M P}

theorem Outcome.wf {s' : LoopCore M P} {op : Op M P} {out : Out M P}
    (h : Outcome s op s' out) (hw : s.Wf k) (hs : s.Within) (hk : k + op.adds ≤ 2 ^ 64 - 1) :
    s'.Wf (k + op.adds) := by
  cases h with
  | refused _ hterm => exact hw.later (Nat.le_add_right _ _) hterm
  | stopped _ reason hrun => exact hw.terminate (fun hne => absurd hrun hne) reason
  | discarded => exact wf_empty rfl rfl hw.nextId
  | pushed => exact hw.frame rfl rfl rfl rfl rfl
  | checkpoint => exact hw.frame rfl rfl rfl rfl rfl
  | noMicrotask => exact hw
  | microtask => exact hw.frame rfl rfl rfl rfl rfl
  | added _ _ _ _ _ _ hrun _ hstate => exact hw.added hk hrun hstate
  | cleared id hshort => exact hw.cleared hs hshort
  | compacted id => exact hw.compacted id
  | peeked =>
      refine hw.shrink (List.dropWhile_sublist _) fun a ha hnot => ?_
      refine hw.lookup_of_not_live ha ?_
      have hdropped : a ∈ s.heap.takeWhile fun a => !s.isLiveArming a := by
        have hsplit := @List.takeWhile_append_dropWhile _ (fun a => !s.isLiveArming a) s.heap
        exact (List.mem_append.mp (hsplit.symm ▸ ha)).resolve_right hnot
      simpa using List.all_eq_true.mp List.all_takeWhile a hdropped
  | promoted now => exact hw.promoteLoop now _
  | enqueued => exact hw.frame rfl rfl rfl rfl rfl
  | noTask => exact hw
  | task => exact hw.frame rfl rfl rfl rfl rfl
  | noTimer => exact hw
  | ran id e hrun hentry hstate =>
      refine hw.park (hw.not_armed hentry (Or.inl hstate)) (fun e' he' => ?_) (fun id' hne => ?_)
        rfl rfl rfl rfl
      · cases (AList.lookup_insert s.timers).symm.trans he'
        exact ⟨hw.tableIds id e hentry, fun due seq heq => by cases heq⟩
      · exact AList.lookup_insert_ne hne
  | ranOnce id e hrun hentry hstate =>
      refine hw.park (hw.not_armed hentry (Or.inl hstate)) (fun e' he' => ?_) (fun id' hne => ?_)
        rfl rfl rfl rfl
      · cases (AList.lookup_erase id s.timers).symm.trans he'
      · exact AList.lookup_erase_ne hne
  | finished => exact hw.frame rfl rfl rfl rfl rfl
  | rearmed id now e e' due hrun hentry hstate hstate' =>
      exact hw.arm (hw.not_armed hentry (Or.inr hstate)) hstate' (Nat.le_refl k)
        (hw.tableIds id e hentry) rfl rfl rfl hrun (hw.nextId hrun)

/-- Every call keeps the invariant, as long as there is an id left for a timer it adds. -/
theorem step_wf (h : s.Wf k) (hs : s.Within) {op : Op M P}
    (hk : k + op.adds ≤ 2 ^ 64 - 1) : (s.step op).Wf (k + op.adds) :=
  (call_outcome s op).wf h hs hk

/-- The number of timers that calls add. -/
def adds (ops : List (Op M P)) : Nat := (ops.map Op.adds).sum

theorem adds_append (as bs : List (Op M P)) : adds (as ++ bs) = adds as + adds bs := by
  simp [adds]

/-- The invariant holds after every run that has an id left for every timer. -/
theorem run_wf (h : s.Wf k) (hs : s.Within) (ops : List (Op M P))
    (hk : k + adds ops ≤ 2 ^ 64 - 1) : (s.run ops).Wf (k + adds ops) := by
  induction ops generalizing s k with
  | nil => exact h
  | cons op ops ih =>
      have hsum : adds (op :: ops) = op.adds + adds ops := by simp [adds]
      rw [hsum, ← Nat.add_assoc] at hk ⊢
      exact ih (step_wf h hs (by omega)) (call_within hs op).1 hk

end LoopCore

end Pelorus.Script
