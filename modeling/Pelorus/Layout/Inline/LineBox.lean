import Mathlib.Order.Bounds.Basic
import Pelorus.Layout.Inline.Run

/-
  Layout/Inline/LineBox.lean --- the line boxes of a run along the block axis (`layout_lines` in
  `px-layout/src/inline.rs`).

  Lengths are integers of app units.  Any boxes may reach a line, and any atomics be on it; which boxes
  have an area there is a parameter.

  A box that is raised or pinned is painted from its moved top to where its bottom would be unmoved.
-/
set_option autoImplicit false

namespace Pelorus.Layout.Inline

/-! ## The parts of a line -/

/-- What is read of a `TextStyle`. -/
structure TextStyle where
  ascent : Int
  descent : Int
  lineHeight : Int
  xHeight : Int

/-- `baseline_in`, at the style's own line height. -/
def TextStyle.baselineIn (style : TextStyle) : Int :=
  style.ascent + (style.lineHeight - (style.ascent + style.descent)).tdiv 2

/-- `vertical-align: top | bottom` on an inline box and all inside it; the number is the root box. -/
inductive Pin where
  | none
  | top (root : Nat)
  | bottom (root : Nat)
  deriving DecidableEq

def Pin.id : Pin → Option Nat
  | none => .none
  | top root | bottom root => some root

def Pin.raise (extent : Int × Int) (lineAbove lineBelow : Int) : Pin → Int
  | none => 0
  | top _ => lineAbove - extent.1
  | bottom _ => extent.2 - lineBelow

/-- An inline box, with what places it. -/
structure LaidBox where
  style : TextStyle
  raise : Int
  pin : Pin
  paddingStart : Int
  borderStart : Int
  paddingEnd : Int
  borderEnd : Int
  decorated : Bool

/-- How far a box is above the baseline of the line, or of its subtree's root. -/
def LaidBox.above (b : LaidBox) : Int := b.style.baselineIn + b.raise

def LaidBox.below (b : LaidBox) : Int := b.style.lineHeight - b.style.baselineIn - b.raise

inductive VAlign where
  | raise (shift : Int)
  | top
  | bottom
  | middle
  | textTop
  | textBottom

structure AtomicInfo where
  align : VAlign
  marginStart : Int
  marginEnd : Int
  size : Int
  baseline : Int

namespace AtomicInfo

variable (info : AtomicInfo)

/-- Margin-box top to baseline. -/
def above : Int := info.marginStart + info.baseline

def marginBoxBlock : Int := info.size + (info.marginStart + info.marginEnd)

def below : Int := info.size + (info.marginStart + info.marginEnd) - info.above

/-- An element of `effective`: but `top` and `bottom` each is a raise from the line's baseline. -/
def effective (spec : AtomicSpec TextStyle Unit) : VAlign :=
  match info.align with
  | .raise r => .raise (spec.parentRaise + r)
  | .middle => .raise (spec.parentRaise + spec.parent.xHeight.tdiv 2 - (info.above - info.below).tdiv 2)
  | .textTop => .raise (spec.parentRaise + spec.parent.ascent - info.above)
  | .textBottom => .raise (spec.parentRaise - spec.parent.descent + info.below)
  | other => other

end AtomicInfo

/-- What a line box is built of: the strut, the boxes that reach the line (those of one subtree are
pinned alike), the atomics on it with what they are aligned to, and which boxes have an area. -/
structure Line where
  strut : TextStyle
  boxes : List LaidBox
  pinned : ∀ b ∈ boxes, ∀ c ∈ boxes, b.pin.id = c.pin.id → b.pin = c.pin
  specs : List (AtomicInfo × AtomicSpec TextStyle Unit)
  area : LaidBox → Bool

/-! ## The height -/

/-- The locals of the loop body: what is above and below the baseline, the tallest of what is aligned
to the line, and the extent of each pinned subtree. -/
structure Extents where
  above : Int
  below : Int
  tallest : Int
  pins : List (Nat × Int × Int)

def notePin (id : Nat) (a b : Int) : List (Nat × Int × Int) → List (Nat × Int × Int)
  | [] => [(id, a, b)]
  | p :: rest => if p.1 = id then (id, max p.2.1 a, max p.2.2 b) :: rest else p :: notePin id a b rest

def Extents.addBox (e : Extents) (b : LaidBox) : Extents :=
  match b.pin.id with
  | some id => { e with pins := notePin id b.above b.below e.pins }
  | none => { e with above := max e.above b.above, below := max e.below b.below }

def Extents.addPin (e : Extents) (p : Nat × Int × Int) : Extents :=
  { e with tallest := max e.tallest (p.2.1 + p.2.2) }

def Extents.addAtomic (e : Extents) (a : AtomicInfo × VAlign) : Extents :=
  match a.2 with
  | .raise r => { e with above := max e.above (a.1.above + r), below := max e.below (a.1.below - r) }
  | _ => { e with tallest := max e.tallest a.1.marginBoxBlock }

namespace Line

variable (l : Line)

/-- The atomics with their effective alignment. -/
def atomics : List (AtomicInfo × VAlign) := l.specs.map fun s => (s.1, s.1.effective s.2)

def boxExtents : Extents :=
  l.boxes.foldl Extents.addBox
    ⟨l.strut.baselineIn, l.strut.lineHeight - l.strut.baselineIn, 0, []⟩

def extents : Extents :=
  l.atomics.foldl Extents.addAtomic (l.boxExtents.pins.foldl Extents.addPin l.boxExtents)

def baseline : Int := l.extents.above

/-- `line_height`: what is aligned to the line makes it taller below. -/
def height : Int :=
  l.baseline + if l.baseline + l.extents.below < l.extents.tallest then l.extents.tallest - l.baseline
    else l.extents.below

def extentOf (pin : Pin) : Int × Int :=
  ((pin.id.bind fun id => l.boxExtents.pins.find? fun p => p.1 = id).map Prod.snd).getD (0, 0)

/-! ## The places -/

/-- How far a box, and its text, is above where the line's baseline would have it. -/
def shift (b : LaidBox) : Int := b.raise + b.pin.raise (l.extentOf b.pin) l.baseline (l.height - l.baseline)

def top (b : LaidBox) : Int := l.baseline - l.shift b - b.style.ascent - b.paddingStart - b.borderStart

def bottom (b : LaidBox) : Int := l.baseline + b.style.descent + b.paddingEnd + b.borderEnd

/-- The block offset and size of a painted fragment. -/
def fragment (b : LaidBox) : Int × Int := (l.top b, l.bottom b - l.top b)

/-- The block offset of an atomic's border box. -/
def atomicOffset (a : AtomicInfo × VAlign) : Int :=
  match a.2 with
  | .raise r => l.baseline - a.1.above - r + a.1.marginStart
  | .top => a.1.marginStart
  | _ => l.height - a.1.marginBoxBlock + a.1.marginStart

/-! ## What a line box promises -/

/-- The top of the `line-height` box of an inline box. -/
def boxTop (b : LaidBox) : Int := l.baseline - l.shift b - b.style.baselineIn

/-- The top of an atomic's margin box. -/
def marginTop (a : AtomicInfo × VAlign) : Int := l.atomicOffset a - a.1.marginStart

/-- The parts fit in a line of this height: the strut and what is aligned on the baseline hang from
one baseline, a pinned subtree from one of its own, and what else is aligned to the line from nothing. -/
def FitsIn (h : Int) : Prop :=
  0 ≤ h ∧ ∃ (baseline : Int) (root : Nat → Int),
    (l.strut.baselineIn ≤ baseline ∧ baseline + (l.strut.lineHeight - l.strut.baselineIn) ≤ h) ∧
    (∀ b ∈ l.boxes, b.above ≤ b.pin.id.elim baseline root ∧ b.pin.id.elim baseline root + b.below ≤ h) ∧
    ∀ a ∈ l.atomics, match a.2 with
      | .raise r => a.1.above + r ≤ baseline ∧ baseline + (a.1.below - r) ≤ h
      | _ => a.1.marginBoxBlock ≤ h

def Paints (b : LaidBox) : Prop := b ∈ l.boxes ∧ b.decorated = true ∧ l.area b = true

/-- The line contains its parts and is no taller than it must be, what is aligned to an edge touches
it, and what is painted is the content area with padding and border. -/
structure Sound : Prop where
  boxes : ∀ b ∈ l.boxes, 0 ≤ l.boxTop b ∧ l.boxTop b + b.style.lineHeight ≤ l.height
  atomics : ∀ a ∈ l.atomics, 0 ≤ l.marginTop a ∧ l.marginTop a + a.1.marginBoxBlock ≤ l.height
  least : IsLeast {h | l.FitsIn h} l.height
  box_top : ∀ b ∈ l.boxes, ∀ i, b.pin = .top i → ∃ c ∈ l.boxes, c.pin = .top i ∧ l.boxTop c = 0
  box_bottom : ∀ b ∈ l.boxes, ∀ i, b.pin = .bottom i →
    ∃ c ∈ l.boxes, c.pin = .bottom i ∧ l.boxTop c + c.style.lineHeight = l.height
  atomic_top : ∀ a ∈ l.atomics, a.2 = .top → l.marginTop a = 0
  atomic_bottom : ∀ a ∈ l.atomics, a.2 = .bottom → l.marginTop a + a.1.marginBoxBlock = l.height
  painted : ∀ b, l.Paints b → l.fragment b =
    (l.baseline - l.shift b - (b.style.ascent + b.paddingStart + b.borderStart),
      b.style.ascent + b.style.descent + (b.paddingStart + b.paddingEnd) + (b.borderStart + b.borderEnd))

end Line

/-! ## The extents -/

/-- A measure that each step of a loop raises to what the element asks for. -/
theorem foldl_le_iff {α β : Type} {step : β → α → β} (measure : β → Int) (asks : α → Int → Prop)
    (hstep : ∀ e a x, measure (step e a) ≤ x ↔ measure e ≤ x ∧ asks a x) (x : Int) :
    ∀ (as : List α) (e : β), measure (as.foldl step e) ≤ x ↔ measure e ≤ x ∧ ∀ a ∈ as, asks a x
  | [], e => by simp
  | a :: as, e => by
      rw [List.foldl_cons, foldl_le_iff measure asks hstep x as, hstep, List.forall_mem_cons, and_assoc]

/-- The extent is that of boxes seen. -/
def Attains (seen : List LaidBox) (p : Nat × Int × Int) : Prop :=
  (∃ b ∈ seen, b.pin.id = some p.1 ∧ b.above = p.2.1) ∧ ∃ b ∈ seen, b.pin.id = some p.1 ∧ b.below = p.2.2

theorem Attains.append {seen : List LaidBox} {p : Nat × Int × Int} (h : Attains seen p) (b : LaidBox) :
    Attains (seen ++ [b]) p :=
  ⟨h.1.imp fun _ => And.imp_left (List.mem_append_left [b]), h.2.imp fun _ => And.imp_left (List.mem_append_left [b])⟩

/-- The extents of the subtrees are those of the boxes seen. -/
structure Noted (seen : List LaidBox) (pins : List (Nat × Int × Int)) : Prop where
  attained : ∀ p ∈ pins, Attains seen p
  bounds : ∀ b ∈ seen, ∀ id, b.pin.id = some id →
    ∃ p, pins.find? (fun p => p.1 = id) = some p ∧ b.above ≤ p.2.1 ∧ b.below ≤ p.2.2

theorem find_notePin (id : Nat) (a b : Int) (j : Nat) : ∀ pins : List (Nat × Int × Int),
    (notePin id a b pins).find? (fun p => p.1 = j) =
      if id = j then some (((pins.find? fun p => p.1 = j).map fun p =>
        (id, max p.2.1 a, max p.2.2 b)).getD (id, a, b))
      else pins.find? fun p => p.1 = j
  | [] => by by_cases h : id = j <;> simp [notePin, h]
  | p :: rest => by
      have ih := find_notePin id a b j rest
      by_cases hp : p.1 = id <;> by_cases hj : id = j <;> grind [notePin]

theorem mem_notePin {id : Nat} {a b : Int} {q : Nat × Int × Int} : ∀ {pins : List (Nat × Int × Int)},
    q ∈ notePin id a b pins → q ∈ pins ∨ q = (id, a, b) ∨
      ∃ p ∈ pins, p.1 = id ∧ q = (id, max p.2.1 a, max p.2.2 b)
  | [], h => by simpa [notePin] using h
  | p :: rest, h => by
      have ih := @mem_notePin id a b q rest
      by_cases hp : p.1 = id <;> grind [notePin]

theorem Noted.note {seen : List LaidBox} {pins : List (Nat × Int × Int)} (h : Noted seen pins) {b : LaidBox}
    {id : Nat} (hid : b.pin.id = some id) : Noted (seen ++ [b]) (notePin id b.above b.below pins) := by
  refine ⟨fun q hq => ?_, fun c hc j hj => ?_⟩
  · have hb : b ∈ seen ++ [b] := List.mem_append_right seen (List.mem_singleton_self b)
    rcases mem_notePin hq with hq | rfl | ⟨p, hp, rfl, rfl⟩
    · exact (h.attained q hq).append b
    · exact ⟨⟨b, hb, hid, rfl⟩, b, hb, hid, rfl⟩
    · obtain ⟨habove, hbelow⟩ := (h.attained p hp).append b
      refine ⟨?_, ?_⟩
      · rcases max_choice p.2.1 b.above with heq | heq <;> rw [heq]
        · exact habove
        · exact ⟨b, hb, hid, rfl⟩
      · rcases max_choice p.2.2 b.below with heq | heq <;> rw [heq]
        · exact hbelow
        · exact ⟨b, hb, hid, rfl⟩
  · rw [find_notePin]
    rcases List.mem_append.mp hc with hc | hc
    · obtain ⟨p, hp, habove, hbelow⟩ := h.bounds c hc j hj
      split
      · exact ⟨_, by rw [hp, Option.map_some, Option.getD_some], habove.trans (le_max_left _ _), hbelow.trans (le_max_left _ _)⟩
      · exact ⟨p, hp, habove, hbelow⟩
    · obtain rfl := List.mem_singleton.mp hc
      rw [if_pos (Option.some.inj (hid.symm.trans hj))]
      cases pins.find? fun p => p.1 = j with
      | none => exact ⟨_, rfl, le_refl _, le_refl _⟩
      | some p => exact ⟨_, rfl, le_max_right _ _, le_max_right _ _⟩

theorem noted_addBox : ∀ (bs seen : List LaidBox) {e : Extents}, Noted seen e.pins →
    Noted (seen ++ bs) (bs.foldl Extents.addBox e).pins
  | [], seen, e, h => by rwa [List.append_nil]
  | b :: bs, seen, e, h => by
      rw [List.foldl_cons, List.append_cons]
      refine noted_addBox bs _ ?_
      unfold Extents.addBox
      split
      · exact h.note ‹_›
      · rename_i hid
        refine ⟨fun p hp => (h.attained p hp).append b, fun c hc j hj => ?_⟩
        rcases List.mem_append.mp hc with hc | hc
        · exact h.bounds c hc j hj
        · rw [List.mem_singleton.mp hc, hid] at hj
          cases hj

namespace Line

variable {l : Line}

theorem noted : Noted l.boxes l.boxExtents.pins :=
  noted_addBox l.boxes [] ⟨fun _ hp => absurd hp List.not_mem_nil, fun _ hb => absurd hb List.not_mem_nil⟩

theorem baseline_le_iff {x : Int} : l.baseline ≤ x ↔
    (l.strut.baselineIn ≤ x ∧ ∀ b ∈ l.boxes, b.pin.id = none → b.above ≤ x) ∧
      ∀ a ∈ l.atomics, ∀ r, a.2 = .raise r → a.1.above + r ≤ x := by
  rw [baseline, extents, foldl_le_iff Extents.above (fun a x => ∀ r, a.2 = .raise r → a.1.above + r ≤ x),
    foldl_le_iff Extents.above fun _ _ => True, boxExtents,
    foldl_le_iff Extents.above fun b x => b.pin.id = none → b.above ≤ x]
  · simp
  · intro e b x
    unfold Extents.addBox
    split <;> simp [*]
  · simp [Extents.addPin]
  · intro e a x
    unfold Extents.addAtomic
    split <;> simp_all

theorem below_le_iff {x : Int} : l.extents.below ≤ x ↔
    (l.strut.lineHeight - l.strut.baselineIn ≤ x ∧ ∀ b ∈ l.boxes, b.pin.id = none → b.below ≤ x) ∧
      ∀ a ∈ l.atomics, ∀ r, a.2 = .raise r → a.1.below - r ≤ x := by
  rw [extents, foldl_le_iff Extents.below (fun a x => ∀ r, a.2 = .raise r → a.1.below - r ≤ x),
    foldl_le_iff Extents.below fun _ _ => True, boxExtents,
    foldl_le_iff Extents.below fun b x => b.pin.id = none → b.below ≤ x]
  · simp
  · intro e b x
    unfold Extents.addBox
    split <;> simp [*]
  · simp [Extents.addPin]
  · intro e a x
    unfold Extents.addAtomic
    split <;> simp_all

theorem tallest_le_iff {x : Int} : l.extents.tallest ≤ x ↔
    (0 ≤ x ∧ ∀ p ∈ l.boxExtents.pins, p.2.1 + p.2.2 ≤ x) ∧
      ∀ a ∈ l.atomics, (∀ r, a.2 ≠ .raise r) → a.1.marginBoxBlock ≤ x := by
  have hbox : l.boxExtents.tallest ≤ x ↔ 0 ≤ x := by
    rw [boxExtents, foldl_le_iff Extents.tallest fun _ _ => True]
    · simp
    · intro e b x
      unfold Extents.addBox
      split <;> simp
  rw [extents, foldl_le_iff Extents.tallest (fun a x => (∀ r, a.2 ≠ .raise r) → a.1.marginBoxBlock ≤ x),
    foldl_le_iff Extents.tallest fun p x => p.2.1 + p.2.2 ≤ x, hbox]
  · simp [Extents.addPin]
  · intro e a x
    unfold Extents.addAtomic
    split <;> simp_all

theorem height_le_iff {x : Int} :
    l.height ≤ x ↔ l.baseline + l.extents.below ≤ x ∧ l.extents.tallest ≤ x := by
  unfold height
  split <;> omega

theorem extentOf_spec {b : LaidBox} (hb : b ∈ l.boxes) {id : Nat} (hid : b.pin.id = some id) :
    b.above ≤ (l.extentOf b.pin).1 ∧ b.below ≤ (l.extentOf b.pin).2 ∧
    (l.extentOf b.pin).1 + (l.extentOf b.pin).2 ≤ l.height ∧
    (∃ c ∈ l.boxes, c.pin.id = some id ∧ c.above = (l.extentOf b.pin).1) ∧
    ∃ c ∈ l.boxes, c.pin.id = some id ∧ c.below = (l.extentOf b.pin).2 := by
  obtain ⟨p, hp, habove, hbelow⟩ := l.noted.bounds b hb id hid
  have hext : l.extentOf b.pin = p.2 := by rw [extentOf, hid, Option.bind_some, hp]; rfl
  have hmem := List.mem_of_find?_eq_some hp
  have hpid : p.1 = id := by simpa using List.find?_some hp
  obtain ⟨hc, hd⟩ := l.noted.attained p hmem
  rw [hext]
  exact ⟨habove, hbelow, (tallest_le_iff.mp (height_le_iff.mp le_rfl).2).1.2 p hmem, hpid ▸ hc, hpid ▸ hd⟩

/-- Where a box is put: the baseline of its subtree. -/
def root (l : Line) (b : LaidBox) : Int :=
  match b.pin with
  | .none => l.baseline
  | .top _ => (l.extentOf b.pin).1
  | .bottom _ => l.height - (l.extentOf b.pin).2

theorem boxTop_eq (b : LaidBox) : l.boxTop b = l.root b - b.above := by
  unfold boxTop shift root LaidBox.above
  cases b.pin <;> simp only [Pin.raise] <;> omega

theorem boxBottom_eq (b : LaidBox) : l.boxTop b + b.style.lineHeight = l.root b + b.below := by
  rw [boxTop_eq, LaidBox.above, LaidBox.below]
  omega

/-! ## One line -/

theorem box_within {b : LaidBox} (hb : b ∈ l.boxes) :
    b.above ≤ l.root b ∧ l.root b + b.below ≤ l.height := by
  obtain ⟨hheight, -⟩ := height_le_iff.mp (le_refl l.height)
  unfold root
  cases hpin : b.pin with
  | none =>
      have hid : b.pin.id = none := by rw [hpin]; rfl
      have habove := (baseline_le_iff.mp le_rfl).1.2 b hb hid
      have hbelow := (below_le_iff.mp le_rfl).1.2 b hb hid
      exact ⟨habove, by dsimp only; omega⟩
  | top i =>
      obtain ⟨habove, hbelow, hsum, -⟩ := extentOf_spec hb (show b.pin.id = some i by rw [hpin]; rfl)
      rw [hpin] at habove hbelow hsum
      exact ⟨habove, by dsimp only; omega⟩
  | bottom i =>
      obtain ⟨habove, hbelow, hsum, -⟩ := extentOf_spec hb (show b.pin.id = some i by rw [hpin]; rfl)
      rw [hpin] at habove hbelow hsum
      exact ⟨by dsimp only; omega, by dsimp only; omega⟩

theorem atomic_within {a : AtomicInfo × VAlign} (ha : a ∈ l.atomics) :
    0 ≤ l.marginTop a ∧ l.marginTop a + a.1.marginBoxBlock ≤ l.height := by
  obtain ⟨hheight, htallest⟩ := height_le_iff.mp (le_refl l.height)
  have haligned := (tallest_le_iff.mp htallest).2 a ha
  unfold marginTop atomicOffset
  split
  · rename_i r hr
    have habove := (baseline_le_iff.mp le_rfl).2 a ha r hr
    have hbelow := (below_le_iff.mp le_rfl).2 a ha r hr
    unfold AtomicInfo.below at hbelow
    unfold AtomicInfo.marginBoxBlock
    omega
  · rename_i htop
    have hbox := haligned fun r => by simp [htop]
    omega
  · rename_i hraise _
    have hbox := haligned hraise
    omega

theorem fitsIn_height : l.FitsIn l.height := by
  obtain ⟨hheight, htallest⟩ := height_le_iff.mp (le_refl l.height)
  obtain ⟨⟨hzero, -⟩, haligned⟩ := tallest_le_iff.mp htallest
  obtain ⟨⟨habove, -⟩, hatomicAbove⟩ := baseline_le_iff.mp (le_refl l.baseline)
  obtain ⟨⟨hbelow, -⟩, hatomicBelow⟩ := below_le_iff.mp (le_refl l.extents.below)
  refine ⟨hzero, l.baseline, fun i => (l.extentOf (.top i)).1, ⟨habove, by omega⟩, fun b hb => ?_, fun a ha => ?_⟩
  · cases hid : b.pin.id with
    | none =>
        have hroot : l.root b = l.baseline := by cases hpin : b.pin <;> simp_all [root, Pin.id]
        exact hroot ▸ box_within hb
    | some i =>
        obtain ⟨habove, hbelow, hsum, -⟩ := extentOf_spec hb hid
        have hext : l.extentOf b.pin = l.extentOf (.top i) := by rw [extentOf, extentOf, hid]; rfl
        rw [hext] at habove hbelow hsum
        exact ⟨habove, by dsimp only [Option.elim]; omega⟩
  · split
    · rename_i r hr
      have := hatomicAbove a ha r hr
      have := hatomicBelow a ha r hr
      omega
    · rename_i hraise
      exact (haligned a ha hraise)

theorem height_le {h : Int} (hfits : l.FitsIn h) : l.height ≤ h := by
  obtain ⟨hzero, baseline, root, ⟨habove, hbelow⟩, hboxes, hatomics⟩ := hfits
  have hraised : ∀ a ∈ l.atomics, ∀ r, a.2 = .raise r → a.1.above + r ≤ baseline ∧ baseline + (a.1.below - r) ≤ h := by
    intro a ha r hr
    have h := hatomics a ha
    rw [hr] at h
    exact h
  have hunpinned : ∀ b ∈ l.boxes, b.pin.id = none → b.above ≤ baseline ∧ baseline + b.below ≤ h := by
    intro b hb hid
    have h := hboxes b hb
    rwa [hid] at h
  have hbase : l.baseline ≤ baseline := baseline_le_iff.mpr
    ⟨⟨habove, fun b hb hid => (hunpinned b hb hid).1⟩, fun a ha r hr => (hraised a ha r hr).1⟩
  have hlow : l.extents.below ≤ h - baseline := by
    refine below_le_iff.mpr ⟨⟨by omega, fun b hb hid => ?_⟩, fun a ha r hr => ?_⟩
    · have := (hunpinned b hb hid).2
      omega
    · have := (hraised a ha r hr).2
      omega
  refine height_le_iff.mpr ⟨by omega, tallest_le_iff.mpr ⟨⟨hzero, fun p hp => ?_⟩, fun a ha hne => ?_⟩⟩
  · obtain ⟨⟨b, hb, hid, heq⟩, c, hc, hid', heq'⟩ := l.noted.attained p hp
    have hup := (hboxes b hb).1
    have hdown := (hboxes c hc).2
    rw [hid] at hup
    rw [hid'] at hdown
    dsimp only [Option.elim] at hup hdown
    omega
  · have h := hatomics a ha
    split at h
    · exact absurd ‹_› (hne _)
    · exact h

theorem painted_iff (b : LaidBox) : l.fragment b =
    (l.baseline - l.shift b - (b.style.ascent + b.paddingStart + b.borderStart),
      b.style.ascent + b.style.descent + (b.paddingStart + b.paddingEnd) + (b.borderStart + b.borderEnd)) ↔
    l.shift b = 0 := by
  rw [fragment, top, bottom, Prod.mk.injEq]
  omega

variable {l' : Line}

/-- With more parts, in any order, neither the distance to the baseline nor the height is less; so the
order of the parts changes neither. -/
theorem height_mono (hstrut : l.strut = l'.strut) (hboxes : l.boxes ⊆ l'.boxes) (hspecs : l.specs ⊆ l'.specs) :
    l.baseline ≤ l'.baseline ∧ l.height ≤ l'.height := by
  have hatomics : l.atomics ⊆ l'.atomics := List.map_subset _ hspecs
  obtain ⟨⟨habove, hboxAbove⟩, hatomicAbove⟩ := baseline_le_iff.mp (le_refl l'.baseline)
  refine ⟨baseline_le_iff.mpr ⟨⟨hstrut ▸ habove, fun b hb => hboxAbove b (hboxes hb)⟩,
    fun a ha => hatomicAbove a (hatomics ha)⟩, height_le ?_⟩
  obtain ⟨hzero, baseline, root, hfits, hbox, hatomic⟩ := l'.fitsIn_height
  exact ⟨hzero, baseline, root, hstrut ▸ hfits, fun b hb => hbox b (hboxes hb), fun a ha => hatomic a (hatomics ha)⟩

theorem height_mono_raised :
    let line (boxes : List LaidBox) (h) : Line := ⟨⟨8, 2, 10, 5⟩, boxes, h, [], fun _ => true⟩
    (line [] (by simp)).baseline ≤ (line [⟨⟨8, 2, 10, 5⟩, 3, .none, 0, 0, 0, 0, false⟩] (by simp)).baseline ∧
      (line [] (by simp)).height ≤ (line [⟨⟨8, 2, 10, 5⟩, 3, .none, 0, 0, 0, 0, false⟩] (by simp)).height :=
  height_mono rfl (List.nil_subset _) (List.nil_subset _)

end Line

end Pelorus.Layout.Inline
