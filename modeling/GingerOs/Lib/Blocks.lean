import Mathlib.Data.List.Count
import Mathlib.Data.List.Pairwise

/-! Half-open address ranges that tile an interval. How often a point is covered is additive, so
splitting and joining ranges never changes it. `settle` puts a range back between the ranges below and
above it and joins it with the neighbours it touches. -/

namespace GingerOs.Blocks
open List

@[ext] structure Block where
  base : Nat
  size : Nat
deriving DecidableEq, Repr

def Block.has (b : Block) (a : Nat) : Bool := b.base ≤ a && a < b.base + b.size

def covers (bs : List Block) (a : Nat) : Nat := bs.countP (·.has a)

def total : List Block → Nat
  | [] => 0
  | b :: bs => b.size + total bs

/-- In address order, with a gap between any two neighbours. -/
def Spread (bs : List Block) : Prop := bs.Pairwise (fun x y => x.base + x.size < y.base)

theorem covers_append (xs ys : List Block) (a : Nat) : covers (xs ++ ys) a = covers xs a + covers ys a :=
  countP_append

theorem covers_cons (x : Block) (xs : List Block) (a : Nat) : covers (x :: xs) a = covers [x] a + covers xs a :=
  covers_append [x] xs a

theorem total_cons (x : Block) (xs : List Block) : total (x :: xs) = x.size + total xs := rfl

theorem total_append (xs ys : List Block) : total (xs ++ ys) = total xs + total ys := by
  induction xs with
  | nil => simp [total]
  | cons x xs ih => rw [cons_append, total_cons, total_cons, ih, Nat.add_assoc]

theorem covers_perm {xs ys : List Block} (same : xs.Perm ys) (a : Nat) : covers xs a = covers ys a :=
  same.countP_eq _

theorem total_perm {xs ys : List Block} (same : xs.Perm ys) : total xs = total ys := by
  induction same with
  | nil => rfl
  | cons x _ ih => rw [total_cons, total_cons, ih]
  | swap x y l => simp only [total_cons]; omega
  | trans _ _ first second => exact first.trans second

theorem covers_join {x y : Block} (touch : x.base + x.size = y.base) (a : Nat) :
    covers [⟨x.base, x.size + y.size⟩] a = covers [x] a + covers [y] a := by
  simp only [covers, countP_singleton, Block.has, Bool.and_eq_true, decide_eq_true_eq]
  split <;> split <;> split <;> omega

variable {bs : List Block}

theorem apart {x y : Block} (once : ∀ a, covers (x :: bs) a ≤ 1) (member : y ∈ bs)
    (nonempty : 0 < x.size) (inhabited : 0 < y.size) : x.base + x.size ≤ y.base ∨ y.base + y.size ≤ x.base := by
  by_contra overlap
  have meet : x.has (max x.base y.base) = true ∧ y.has (max x.base y.base) = true := by
    simp only [Block.has, Bool.and_eq_true, decide_eq_true_eq]
    omega
  have first := once (max x.base y.base)
  have second : 0 < covers bs (max x.base y.base) := countP_pos_iff.mpr ⟨y, member, meet.2⟩
  rw [covers_cons] at first
  have here : covers [x] (max x.base y.base) = 1 := by simp [covers, meet.1]
  omega

theorem pairwise_disjoint (once : ∀ a, covers bs a ≤ 1) :
    bs.Pairwise (fun x y => ∀ a, ¬ (x.has a = true ∧ y.has a = true)) := by
  induction bs with
  | nil => exact List.Pairwise.nil
  | cons x bs ih =>
    refine pairwise_cons.mpr ⟨?_, ih ?_⟩
    · intro y member a both
      have here := once a
      have other : 0 < covers bs a := countP_pos_iff.mpr ⟨y, member, both.2⟩
      rw [covers_cons, covers, countP_singleton, if_pos both.1] at here
      omega
    · intro a
      have here := once a
      rw [covers_cons] at here
      omega

def joinLeft (front : List Block) (b : Block) : List Block × Block :=
  match front.getLast? with
  | some l => if l.base + l.size = b.base then (front.dropLast, ⟨l.base, l.size + b.size⟩) else (front, b)
  | none => (front, b)

def joinRight (b : Block) (back : List Block) : Block × List Block :=
  match back with
  | r :: rest => if b.base + b.size = r.base then (⟨b.base, b.size + r.size⟩, rest) else (b, back)
  | [] => (b, back)

def settle (front : List Block) (b : Block) (back : List Block) : List Block :=
  let left := joinLeft front b
  let right := joinRight left.2 back
  left.1 ++ right.1 :: right.2

section Shapes
variable {front back : List Block} {l b r : Block}

theorem settle_apart (left : ∀ x, front.getLast? = some x → x.base + x.size ≠ b.base)
    (right : ∀ y, back.head? = some y → b.base + b.size ≠ y.base) : settle front b back = front ++ b :: back := by
  have first : joinLeft front b = (front, b) := by
    unfold joinLeft
    split
    next x last => rw [if_neg (left x last)]
    next => rfl
  cases back with
  | nil => simp [settle, first, joinRight]
  | cons y rest => simp [settle, first, joinRight, right y rfl]

theorem settle_left (touch : l.base + l.size = b.base) (right : ∀ y, back.head? = some y → b.base + b.size ≠ y.base) :
    settle (front ++ [l]) b back = front ++ ⟨l.base, l.size + b.size⟩ :: back := by
  cases back with
  | nil => simp [settle, joinLeft, joinRight, touch]
  | cons y rest =>
    have gap : ¬ l.base + (l.size + b.size) = y.base := by rw [← Nat.add_assoc, touch]; exact right y rfl
    simp [settle, joinLeft, joinRight, touch, gap]

theorem settle_right (left : ∀ x, front.getLast? = some x → x.base + x.size ≠ b.base)
    (touch : b.base + b.size = r.base) : settle front b (r :: back) = front ++ ⟨b.base, b.size + r.size⟩ :: back := by
  have first : joinLeft front b = (front, b) := by
    unfold joinLeft
    split
    next x last => rw [if_neg (left x last)]
    next => rfl
  simp [settle, first, joinRight, touch]

theorem settle_both (low : l.base + l.size = b.base) (high : b.base + b.size = r.base) :
    settle (front ++ [l]) b (r :: back) = front ++ ⟨l.base, l.size + b.size + r.size⟩ :: back := by
  have touch : l.base + (l.size + b.size) = r.base := by rw [← Nat.add_assoc, low, high]
  simp [settle, joinLeft, joinRight, low, touch]

end Shapes

private theorem joinLeft_covers (front : List Block) (b : Block) (a : Nat) :
    covers (joinLeft front b).1 a + covers [(joinLeft front b).2] a = covers front a + covers [b] a := by
  unfold joinLeft
  split
  next l last =>
    split
    next touch =>
      obtain ⟨rest, rfl⟩ := getLast?_eq_some_iff.mp last
      have split := covers_join touch a
      simp only [dropLast_concat, covers_append]
      omega
    next => rfl
  next => rfl

private theorem joinRight_covers (b : Block) (back : List Block) (a : Nat) :
    covers [(joinRight b back).1] a + covers (joinRight b back).2 a = covers [b] a + covers back a := by
  cases back with
  | nil => rfl
  | cons r rest =>
    simp only [joinRight]
    split
    next touch =>
      have split := covers_join touch a
      rw [covers_cons r rest]
      simp only
      omega
    next => rfl

theorem settle_covers (front back : List Block) (b : Block) (a : Nat) :
    covers (settle front b back) a = covers (b :: front ++ back) a := by
  have first := joinLeft_covers front b a
  have second := joinRight_covers (joinLeft front b).2 back a
  have whole : covers (settle front b back) a = covers (joinLeft front b).1 a +
      (covers [(joinRight (joinLeft front b).2 back).1] a + covers (joinRight (joinLeft front b).2 back).2 a) := by
    rw [settle, covers_append, covers_cons]
  rw [whole, cons_append, covers_cons b, covers_append]
  omega

theorem settle_total (front back : List Block) (b : Block) :
    total (settle front b back) = total (b :: front ++ back) := by
  have first : total (joinLeft front b).1 + (joinLeft front b).2.size = total front + b.size := by
    unfold joinLeft
    split
    next l last =>
      split
      next =>
        obtain ⟨rest, rfl⟩ := getLast?_eq_some_iff.mp last
        simp only [dropLast_concat, total_append]
        simp only [total]
        omega
      next => rfl
    next => rfl
  have second : ∀ c : Block, (joinRight c back).1.size + total (joinRight c back).2 = c.size + total back := by
    intro c
    cases back with
    | nil => rfl
    | cons r rest =>
      simp only [joinRight]
      split
      next => simp only [total_cons]; omega
      next => rfl
  have last := second (joinLeft front b).2
  simp only [settle, total_append, cons_append, total_cons]
  omega

variable {front back : List Block} {b : Block}

private theorem joinLeft_spread (spread : Spread front)
    (below : ∀ x ∈ front, x.base + x.size ≤ b.base) (nonempty : ∀ x ∈ front, 0 < x.size) :
    Spread (joinLeft front b).1 ∧ (∀ x ∈ (joinLeft front b).1, x.base + x.size < (joinLeft front b).2.base) ∧
      (joinLeft front b).2.base + (joinLeft front b).2.size = b.base + b.size := by
  rcases eq_nil_or_concat front with rfl | ⟨rest, l, rfl⟩
  · exact ⟨spread, by simp [joinLeft], rfl⟩
  simp only [concat_eq_append] at *
  have order := pairwise_append.mp spread
  simp only [joinLeft, getLast?_append, getLast?_singleton, Option.some_or, dropLast_concat]
  split
  next touch =>
    refine ⟨order.1, fun x member => order.2.2 x member l (by simp), ?_⟩
    simp only
    omega
  rename_i gap
  refine ⟨spread, ?_, rfl⟩
  intro x member
  rcases mem_append.mp member with earlier | last
  · have step := order.2.2 x earlier l (by simp)
    have reach := below l (by simp)
    simp only
    omega
  · obtain rfl := mem_singleton.mp last
    exact Nat.lt_of_le_of_ne (below x member) gap

/-- What holds of the ranges and survives joining two that touch holds of the
settled ranges. -/
theorem settle_forall {P : Block → Prop}
    (join : ∀ x y : Block, P x → P y → x.base + x.size = y.base → P ⟨x.base, x.size + y.size⟩)
    (low : ∀ x ∈ front, P x) (here : P b) (high : ∀ y ∈ back, P y) : ∀ x ∈ settle front b back, P x := by
  have first : (∀ x ∈ (joinLeft front b).1, P x) ∧ P (joinLeft front b).2 := by
    unfold joinLeft
    split
    next l last =>
      split
      next touch =>
        exact ⟨fun x member => low x (dropLast_subset _ member),
          join l b (low l (mem_of_getLast? last)) here touch⟩
      next => exact ⟨low, here⟩
    next => exact ⟨low, here⟩
  have second : ∀ c, P c → P (joinRight c back).1 ∧ ∀ y ∈ (joinRight c back).2, P y := by
    intro c holds
    cases back with
    | nil => exact ⟨holds, by simp [joinRight]⟩
    | cons r rest =>
      simp only [joinRight]
      split
      next touch => exact ⟨join c r holds (high r (by simp)) touch, fun y member => high y (by simp [member])⟩
      next => exact ⟨holds, high⟩
  obtain ⟨middle, rest⟩ := second _ first.2
  intro x member
  simp only [settle, mem_append, mem_cons] at member
  rcases member with early | rfl | late
  · exact first.1 x early
  · exact middle
  · exact rest x late

theorem total_ge {k : Nat} (wide : ∀ b ∈ bs, k ≤ b.size) : k * bs.length ≤ total bs := by
  induction bs with
  | nil => simp
  | cons b bs ih =>
    have first := wide b (by simp)
    have rest := ih (fun b member => wide b (by simp [member]))
    rw [total_cons, length_cons, Nat.mul_succ]
    omega

/-- Which ranges lie below a nonempty range and which above it is settled by the ranges. -/
theorem split_unique {low high : List Block} (parts : front ++ back = low ++ high)
    (size : 0 < b.size) (below : ∀ x ∈ front, x.base + x.size ≤ b.base) (above : ∀ y ∈ back, b.base + b.size ≤ y.base)
    (under : ∀ x ∈ low, x.base + x.size ≤ b.base) (upper : ∀ y ∈ high, b.base + b.size ≤ y.base) :
    front = low ∧ back = high := by
  have pick : ∀ xs ys : List Block, (∀ x ∈ xs, x.base + x.size ≤ b.base) → (∀ y ∈ ys, b.base + b.size ≤ y.base) →
      (xs ++ ys).filter (fun x => x.base + x.size ≤ b.base) = xs := by
    intro xs ys under upper
    rw [filter_append, filter_eq_self.mpr (by simpa using under), filter_eq_nil_iff.mpr, append_nil]
    intro y member
    have high := upper y member
    simp only [decide_eq_true_eq]
    omega
  have first : front = low := by rw [← pick front back below above, parts, pick low high under upper]
  exact ⟨first, append_cancel_left (first ▸ parts)⟩

theorem settle_spot {low high : List Block} (parts : front ++ back = low ++ high)
    (size : 0 < b.size) (below : ∀ x ∈ front, x.base + x.size ≤ b.base) (above : ∀ y ∈ back, b.base + b.size ≤ y.base)
    (under : ∀ x ∈ low, x.base + x.size < b.base) (upper : ∀ y ∈ high, b.base + b.size < y.base) :
    settle front b back = low ++ b :: high := by
  obtain ⟨rfl, rfl⟩ := split_unique parts size below above (fun x member => Nat.le_of_lt (under x member))
    (fun y member => Nat.le_of_lt (upper y member))
  exact settle_apart (fun x last => Nat.ne_of_lt (under x (mem_of_getLast? last)))
    (fun y first => Nat.ne_of_lt (upper y (mem_of_head? first)))

/-- What is left of the ranges when `k` bytes are taken off the low end of `b`. -/
def Block.rest (b : Block) (k : Nat) : List Block := if b.size = k then [] else [⟨b.base + k, b.size - k⟩]

/-- The first range of at least `k` bytes gives up its low end. Without one there is no answer. -/
def FirstFit (bs : List Block) (k : Nat) (base : Option Nat) (left : List Block) : Prop :=
  (∀ x ∈ bs, x.size < k) ∧ base = none ∧ left = bs ∨
    ∃ front b back, bs = front ++ b :: back ∧ (∀ x ∈ front, x.size < k) ∧ k ≤ b.size ∧ base = some b.base ∧
      left = front ++ b.rest k ++ back

/-- Settling what a first fit took gives the ranges back as they were. -/
theorem settle_rest {low high : List Block} {k : Nat} (spread : Spread (low ++ b :: high))
    (positive : 0 < k) (fits : k ≤ b.size) (parts : front ++ back = low ++ (b.rest k ++ high))
    (below : ∀ x ∈ front, x.base + x.size ≤ b.base) (above : ∀ y ∈ back, b.base + k ≤ y.base) :
    settle front ⟨b.base, k⟩ back = low ++ b :: high := by
  obtain ⟨_, rise, across⟩ := pairwise_append.mp spread
  have under : ∀ x ∈ low, x.base + x.size < b.base := fun x member => across x member b (by simp)
  have upper := (pairwise_cons.mp rise).1
  unfold Block.rest at parts
  split at parts
  next whole =>
    have same : (⟨b.base, k⟩ : Block) = b := by rw [← whole]
    rw [same]
    exact settle_spot parts (by omega) below (by rw [whole]; exact above) under upper
  obtain ⟨rfl, rfl⟩ := split_unique (b := ⟨b.base, k⟩) parts positive below above
    (fun x member => Nat.le_of_lt (under x member)) (by
      intro y member
      rcases mem_append.mp member with rest | later
      · obtain rfl := mem_singleton.mp rest
        exact Nat.le_refl _
      · have above := upper y later
        simp only
        omega)
  have joined : (⟨b.base, k + (b.size - k)⟩ : Block) = b := by
    rw [Nat.add_sub_cancel' fits]
  rw [singleton_append, settle_right ?_ rfl, joined]
  exact fun x last => Nat.ne_of_lt (under x (mem_of_getLast? last))

theorem holder_unique (once : ∀ a, covers bs a ≤ 1) {x y : Block} (first : x ∈ bs) (second : y ∈ bs)
    {a : Nat} (inX : x.has a = true) (inY : y.has a = true) : x = y := by
  by_contra differs
  have symm : Std.Symm (fun x y : Block => ∀ a, ¬ (x.has a = true ∧ y.has a = true)) :=
    ⟨fun _ _ clear a both => clear a both.symm⟩
  exact (pairwise_disjoint once).forall first second differs a ⟨inX, inY⟩

/-- Putting a range back where it fits keeps the order and leaves no two
neighbours touching. -/
theorem settle_spread (spread : Spread (front ++ back))
    (below : ∀ x ∈ front, x.base + x.size ≤ b.base) (above : ∀ y ∈ back, b.base + b.size ≤ y.base)
    (nonempty : ∀ x ∈ front ++ back, 0 < x.size) : Spread (settle front b back) := by
  have order := pairwise_append.mp spread
  obtain ⟨first, under, reach⟩ := joinLeft_spread order.1 below (fun x member => nonempty x (by simp [member]))
  have inside : ∀ x ∈ (joinLeft front b).1, ∀ y ∈ back, x.base + x.size < y.base := by
    intro x member y later
    have low := under x member
    have high := above y later
    omega
  cases back with
  | nil =>
    refine pairwise_append.mpr ⟨first, pairwise_singleton _ _, ?_⟩
    intro x member y last
    obtain rfl := mem_singleton.mp last
    exact under x member
  | cons r rest =>
    have rise := pairwise_cons.mp order.2.1
    simp only [settle, joinRight]
    split
    next touch =>
      refine pairwise_append.mpr ⟨first, pairwise_cons.mpr ⟨?_, rise.2⟩, ?_⟩
      · intro y later
        have step := rise.1 y later
        simp only
        omega
      · intro x member y last
        rcases mem_cons.mp last with rfl | later
        · exact under x member
        · exact inside x member y (by simp [later])
    next gap =>
      refine pairwise_append.mpr ⟨first, pairwise_cons.mpr ⟨?_, order.2.1⟩, ?_⟩
      · intro y later
        have bound := above r (by simp)
        simp only
        rcases mem_cons.mp later with rfl | last
        · omega
        · have step := rise.1 y last
          omega
      · intro x member y last
        rcases mem_cons.mp last with rfl | later
        · exact under x member
        · exact inside x member y later

end GingerOs.Blocks
