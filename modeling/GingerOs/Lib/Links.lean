import Mathlib.Data.List.Nodup
import Mathlib.Logic.Function.Basic

/-! Doubly linked lists in a store of cells. Every cell's forward field holds the cell after it, and
the backward field the same along the reversed list. Splicing a cell in or out changes two fields of its
neighbours, so both rules ask for agreement everywhere else. -/

namespace GingerOs.Links
open List

/-- How a piece of code can fail to return: an assertion or panic, a store
through a null pointer, or a loop that never leaves. -/
inductive Stop where
  | panic
  | wild
  | endless
deriving DecidableEq, Repr

theorem ok_bind {ε α β : Type} (a : α) (f : α → Except ε β) : (Except.ok a >>= f) = f a := rfl

theorem bind_ok {ε α β : Type} {x : Except ε α} {f : α → Except ε β} {b : β} (call : x >>= f = .ok b) :
    ∃ a, x = .ok a ∧ f a = .ok b := by
  cases x with
  | error e => cases call
  | ok a => exact ⟨a, rfl, call⟩

theorem ok_pair {ε α β : Type} {x : Except ε (α × β)} {a c : α} {b d : β} (one : x = .ok (a, b))
    (other : x = .ok (c, d)) : a = c ∧ b = d := Prod.mk.inj (Except.ok.inj (one.symm.trans other))

/-- A call whose error is looked at: it was `0`, or the check has been taken. -/
theorem bind_err {ε σ β : Type} {x : Except ε (Int × σ)} {g : Int × σ → Except ε β} {bad good : Int → σ → Except ε β}
    {b : β} (call : x >>= g = .ok b) (shape : ∀ e s, g (e, s) = if e ≠ 0 then bad e s else good e s) :
    (∃ s, x = .ok (0, s) ∧ good 0 s = .ok b) ∨ ∃ e s, x = .ok (e, s) ∧ e ≠ 0 ∧ bad e s = .ok b := by
  obtain ⟨⟨e, s⟩, value, rest⟩ := bind_ok call
  rw [shape] at rest
  by_cases failed : e ≠ 0
  · rw [if_pos failed] at rest
    exact .inr ⟨e, s, value, failed, rest⟩
  · rw [if_neg failed] at rest
    obtain rfl : e = 0 := not_not.mp failed
    exact .inl ⟨s, value, rest⟩

theorem bind_sign {ε σ β : Type} {x : Except ε (Int × σ)} {g : Int × σ → Except ε β} {bad good : Int → σ → Except ε β}
    {b : β} {P Q : σ → Prop} (call : x >>= g = .ok b) (shape : ∀ e s, g (e, s) = if e ≠ 0 then bad e s else good e s)
    (ways : ∀ e s, x = .ok (e, s) → e = 0 ∧ P s ∨ e < 0 ∧ Q s) :
    (∃ s, P s ∧ good 0 s = .ok b) ∨ ∃ e s, e < 0 ∧ Q s ∧ bad e s = .ok b := by
  rcases bind_err call shape with ⟨s, value, rest⟩ | ⟨e, s, value, failed, rest⟩
  · rcases ways 0 s value with ⟨_, fine⟩ | ⟨negative, _⟩
    · exact .inl ⟨s, fine, rest⟩
    · exact absurd negative (Int.lt_irrefl 0)
  · rcases ways e s value with ⟨zero, _⟩ | ⟨negative, refused⟩
    · exact absurd zero failed
    · exact .inr ⟨e, s, negative, refused, rest⟩

theorem map_ok {ε α β : Type} {f : α → β} {x : Except ε α} {b : β} (call : f <$> x = .ok b) :
    ∃ a, x = .ok a ∧ b = f a := by
  cases x with
  | error => cases call
  | ok a =>
    cases call
    exact ⟨a, rfl, rfl⟩

/-- A loop whose every turn moves `P` on by at most `cost`. -/
theorem foldlM_count {ε σ α : Type} {f : σ → α → Except ε σ} (P : Nat → σ → Prop) (cost : Nat) {items : List α}
    (step : ∀ a ∈ items, ∀ n s s', P n s → f s a = .ok s' → P (n + cost) s') {n : Nat} {s s' : σ} (start : P n s)
    (call : items.foldlM f s = .ok s') : P (n + cost * items.length) s' := by
  induction items generalizing n s with
  | nil =>
    cases call
    exact start
  | cons a items ih =>
    obtain ⟨t, first, rest⟩ := bind_ok call
    have last := ih (fun b member => step b (mem_cons_of_mem a member)) (step a mem_cons_self n s t start first) rest
    have total : n + cost * (a :: items).length = n + cost + cost * items.length := by
      rw [length_cons, Nat.mul_succ]
      omega
    rw [total]
    exact last

variable {P : Type*}

/-- Every cell of the list holds its successor; the last one holds `after`. -/
def Follows (link : P → Option P) : List P → Option P → Prop
  | [], _ => True
  | cell :: cells, after => link cell = cells.head?.or after ∧ Follows link cells after

variable {link : P → Option P} {after : Option P} {cells front back : List P} {cell : P}

theorem follows_append :
    Follows link (front ++ back) after ↔ Follows link front (back.head?.or after) ∧ Follows link back after := by
  induction front with
  | nil => simp [Follows]
  | cons cell cells ih =>
    cases cells with
    | nil => simp [Follows]
    | cons next rest =>
      simp only [cons_append, Follows, head?_cons, Option.some_or] at ih ⊢
      rw [ih]
      exact and_assoc.symm

theorem follows_concat :
    Follows link (cells ++ [cell]) after ↔ Follows link cells (some cell) ∧ link cell = after := by
  simp [follows_append, Follows]

theorem Follows.congr {other : P → Option P}
    (linked : Follows link cells after) (same : ∀ cell ∈ cells, other cell = link cell) :
    Follows other cells after := by
  induction cells with
  | nil => trivial
  | cons cell cells ih =>
    exact ⟨(same cell (by simp)).trans linked.1, ih linked.2 (fun next member => same next (by simp [member]))⟩

theorem Follows.redirect {other : P → Option P} {target : Option P}
    (linked : Follows link cells after) (distinct : cells.Nodup)
    (same : ∀ cell ∈ cells, cells.getLast? ≠ some cell → other cell = link cell)
    (last : ∀ cell, cells.getLast? = some cell → other cell = target) : Follows other cells target := by
  rcases eq_nil_or_concat cells with rfl | ⟨front, cell, rfl⟩
  · trivial
  simp only [concat_eq_append] at *
  obtain ⟨before, _⟩ := follows_concat.mp linked
  refine follows_concat.mpr ⟨before.congr ?_, last cell (by simp)⟩
  intro member inside
  refine same member (by simp [inside]) ?_
  simp only [getLast?_append, getLast?_singleton, Option.some_or, ne_eq, Option.some.injEq]
  rintro rfl
  simp [nodup_append] at distinct
  exact distinct.2 _ inside rfl

theorem ends_ne (absent : cell ∉ front ++ back) :
    front.getLast? ≠ some cell ∧ back.head? ≠ some cell :=
  ⟨fun last => absent (mem_append_left _ (mem_of_getLast? last)),
    fun head => absent (mem_append_right _ (mem_of_head? head))⟩

/-- A list whose forward and backward fields agree, without a cycle. -/
structure Linked (next prev : P → Option P) (cells : List P) : Prop where
  next : Follows next cells none
  prev : Follows prev cells.reverse none
  nodup : cells.Nodup

theorem Linked.nil (next prev : P → Option P) : Linked next prev [] := ⟨trivial, trivial, nodup_nil⟩

variable {next prev : P → Option P}

theorem Linked.congr {prev next' prev' : P → Option P} (linked : Linked next prev cells)
    (sameNext : ∀ cell ∈ cells, next' cell = next cell) (samePrev : ∀ cell ∈ cells, prev' cell = prev cell) :
    Linked next' prev' cells :=
  ⟨linked.next.congr sameNext, linked.prev.congr (fun cell member => samePrev cell (by simpa using member)),
    linked.nodup⟩

theorem Linked.next_eq (linked : Linked next prev (front ++ cell :: back)) : next cell = back.head? := by
  have forward := (follows_append.mp linked.next).2
  simpa using forward.1

theorem Linked.prev_eq (linked : Linked next prev (front ++ cell :: back)) : prev cell = front.getLast? := by
  have backward := linked.prev
  simp only [reverse_append, reverse_cons, append_assoc, cons_append, nil_append] at backward
  simpa using (follows_append.mp backward).2.1

theorem Linked.absent (linked : Linked next prev (front ++ cell :: back)) : cell ∉ front ++ back :=
  (nodup_cons.mp (nodup_middle.mp linked.nodup)).1

section Splice
variable {next' prev' : P → Option P}

/-- Part of a list is replaced: the cells around it point at the new part, and no other field of
the cells that stay changes. -/
theorem Linked.splice (old new : List P) (linked : Linked next prev (front ++ (old ++ back)))
    (distinct : (front ++ (new ++ back)).Nodup) (forward : Follows next' new back.head?)
    (backward : Follows prev' new.reverse front.getLast?)
    (nextSame : ∀ other ∈ front ++ back, front.getLast? ≠ some other → next' other = next other)
    (nextLast : ∀ other, front.getLast? = some other → next' other = (new ++ back).head?)
    (prevSame : ∀ other ∈ front ++ back, back.head? ≠ some other → prev' other = prev other)
    (prevHead : ∀ other, back.head? = some other → prev' other = (front ++ new).getLast?) :
    Linked next' prev' (front ++ (new ++ back)) := by
  have parts := nodup_append.mp distinct
  have rear := (nodup_append.mp parts.2.1).2.1
  have apart : ∀ other ∈ back, front.getLast? ≠ some other := fun other member last =>
    parts.2.2 other (mem_of_getLast? last) other (mem_append_right _ member) rfl
  have behind : ∀ other ∈ front, back.head? ≠ some other := fun other member head =>
    parts.2.2 other member other (mem_append_right _ (mem_of_head? head)) rfl
  constructor
  · obtain ⟨early, late⟩ := follows_append.mp linked.next
    refine follows_append.mpr ⟨early.redirect parts.1 ?_ ?_, follows_append.mpr ⟨by simpa using forward, ?_⟩⟩
    · exact fun other member => nextSame other (by simp [member])
    · simpa using nextLast
    · exact (follows_append.mp late).2.congr (fun other member => nextSame other (by simp [member]) (apart other member))
  · have reversed := linked.prev
    simp only [reverse_append, append_assoc] at reversed ⊢
    obtain ⟨late, early⟩ := follows_append.mp reversed
    refine follows_append.mpr ⟨late.redirect (nodup_reverse.mpr rear) ?_ ?_,
      follows_append.mpr ⟨by simpa using backward, ?_⟩⟩
    · intro other member notHead
      exact prevSame other (by simp [mem_reverse.mp member]) (by simpa using notHead)
    · intro other head
      simpa using prevHead other (by simpa using head)
    · exact (follows_append.mp early).2.congr (fun other member => prevSame other (by simp [mem_reverse.mp member])
        (behind other (mem_reverse.mp member)))
  · exact distinct

variable [DecidableEq P]

theorem Linked.insert (linked : Linked next prev (front ++ back)) (fresh : cell ∉ front ++ back)
    (nexts : ∀ q ∈ front ++ cell :: back,
      next' q = if q = cell then back.head? else if front.getLast? = some q then some cell else next q)
    (prevs : ∀ q ∈ front ++ cell :: back,
      prev' q = if q = cell then front.getLast? else if back.head? = some q then some cell else prev q) :
    Linked next' prev' (front ++ cell :: back) := by
  have away : ∀ q ∈ front ++ back, q ≠ cell ∧ q ∈ front ++ cell :: back := by
    intro q member
    refine ⟨?_, mem_append.mpr ((mem_append.mp member).imp_right (mem_cons_of_mem cell))⟩
    rintro rfl
    exact fresh member
  have here : cell ∈ front ++ cell :: back := mem_append_right front mem_cons_self
  refine linked.splice [] [cell] ?_ ⟨by simp [nexts cell here], trivial⟩ ⟨by simp [prevs cell here], trivial⟩ ?_ ?_ ?_ ?_
  · exact nodup_middle.mpr (nodup_cons.mpr ⟨fresh, linked.nodup⟩)
  · intro q member notLast
    rw [nexts q (away q member).2, if_neg (away q member).1, if_neg notLast]
  · intro q last
    have member := away q (mem_append_left back (mem_of_getLast? last))
    rw [nexts q member.2, if_neg member.1, if_pos last]
    rfl
  · intro q member notHead
    rw [prevs q (away q member).2, if_neg (away q member).1, if_neg notHead]
  · intro q head
    have member := away q (mem_append_right front (mem_of_head? head))
    rw [prevs q member.2, if_neg member.1, if_pos head]
    simp

theorem Linked.remove (linked : Linked next prev (front ++ cell :: back))
    (nexts : ∀ q ∈ front ++ back, next' q = if front.getLast? = some q then back.head? else next q)
    (prevs : ∀ q ∈ front ++ back, prev' q = if back.head? = some q then front.getLast? else prev q) :
    Linked next' prev' (front ++ back) := by
  have distinct := (nodup_cons.mp (nodup_middle.mp linked.nodup)).2
  refine linked.splice [cell] [] distinct trivial trivial ?_ ?_ ?_ ?_
  · intro q member notLast
    rw [nexts q member, if_neg notLast]
  · intro q last
    rw [nexts q (mem_append_left back (mem_of_getLast? last)), if_pos last]
    rfl
  · intro q member notHead
    rw [prevs q member, if_neg notHead]
  · intro q head
    rw [prevs q (mem_append_right front (mem_of_head? head)), if_pos head]
    simp

end Splice

theorem mem_middle {x : P} : x ∈ front ++ cell :: back ↔ x = cell ∨ x ∈ front ++ back :=
  perm_middle.mem_iff.trans mem_cons

/-- `for (cell = head; cell; cell = cell->next)` up to the first cell that
passes the test. A walk longer than the number of cells is on a cycle. -/
def walk (next : P → Option P) (test : P → Bool) : Nat → Option P → Except Stop (Option P)
  | _, none => .ok none
  | 0, some _ => .error .endless
  | fuel + 1, some cell => if test cell then .ok (some cell) else walk next test fuel (next cell)

theorem Follows.walk (linked : Follows next cells none) (test : P → Bool) {fuel : Nat} (enough : cells.length ≤ fuel) :
    Links.walk next test fuel cells.head? = .ok (cells.find? test) := by
  induction cells generalizing fuel with
  | nil => cases fuel <;> rfl
  | cons cell cells ih =>
    cases fuel with
    | zero => simp at enough
    | succ fuel =>
      have link : next cell = cells.head? := by simpa using linked.1
      simp only [head?_cons, Links.walk, find?_cons]
      cases test cell with
      | true => rfl
      | false =>
        simp only [Bool.false_eq_true, if_false, link]
        exact ih linked.2 (by simpa using enough)

def gather (next : P → Option P) : Nat → Option P → List P
  | fuel + 1, some cell => cell :: gather next fuel (next cell)
  | _, _ => []

theorem Follows.gather (linked : Follows next cells none) {fuel : Nat}
    (enough : cells.length ≤ fuel) : Links.gather next fuel cells.head? = cells := by
  induction cells generalizing fuel with
  | nil => cases fuel <;> rfl
  | cons cell cells ih =>
    cases fuel with
    | zero => simp at enough
    | succ fuel =>
      have link : next cell = cells.head? := by simpa using linked.1
      rw [head?_cons, Links.gather, link, ih linked.2 (by simpa using enough)]

end GingerOs.Links
