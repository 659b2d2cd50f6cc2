import Mathlib.Data.List.TakeWhile

/-! Slash-separated paths over any alphabet. A path is the list of its components; "." and ".." are
resolved from left to right, and a resolved path is written with one separator before each component. -/

namespace GingerOs.Paths
open List

variable {α : Type} [DecidableEq α]

def components (sep : α) (path : List α) : List (List α) := (path.splitOn sep).filter (· ≠ [])

/-- One more component: "." is dropped, and ".." removes the last one, if there is one. -/
def resolveStep (dot : α) (stack : List (List α)) (component : List α) : List (List α) :=
  if component = [dot] then stack
  else if component = [dot, dot] then stack.dropLast
  else stack ++ [component]

def resolve (dot : α) (path : List (List α)) : List (List α) := path.foldl (resolveStep dot) []

def render (sep : α) (path : List (List α)) : List α := if path = [] then [sep] else path.flatMap (sep :: ·)

variable {path : List (List α)} {component : List α}

section Components
variable {sep : α}

theorem components_nil : components sep ([] : List α) = [] := by simp [components]

theorem components_append (front back : List α) :
    components sep (front ++ sep :: back) = components sep front ++ components sep back := by
  unfold components
  rw [splitOn_append_cons_self, filter_append]

theorem components_sep (path : List α) : components sep (sep :: path) = components sep path := by
  have split : components sep ([] ++ sep :: path) = components sep [] ++ components sep path := components_append [] path
  rwa [components_nil] at split

theorem components_word {word : List α} (nonempty : word ≠ []) (whole : sep ∉ word) : components sep word = [word] := by
  unfold components
  rw [splitOn_eq_singleton whole]
  simp [nonempty]

theorem mem_components {path : List α} (member : component ∈ components sep path) :
    component ≠ [] ∧ sep ∉ component ∧ ∀ letter ∈ component, letter ∈ path := by
  induction size : path.length using Nat.strongRecOn generalizing path with
  | ind length ih =>
    by_cases inside : sep ∈ path
    · -- The first separator splits off a word and a shorter path.
      obtain ⟨front, back, rfl, whole⟩ := eq_append_cons_of_mem inside
      rw [components_append] at member
      cases mem_append.mp member with
      | inl first =>
        by_cases empty : front = []
        · rw [empty, components_nil] at first
          exact absurd first not_mem_nil
        · rw [components_word empty whole, mem_singleton] at first
          subst first
          exact ⟨empty, whole, fun _ letter => mem_append_left _ letter⟩
      | inr later =>
        have shorter : back.length < length := by
          rw [← size, length_append, length_cons]
          omega
        obtain ⟨nonempty, free, letters⟩ := ih _ shorter later rfl
        exact ⟨nonempty, free, fun letter held =>
          mem_append_right _ (mem_cons_of_mem _ (letters letter held))⟩
    · by_cases empty : path = []
      · rw [empty, components_nil] at member
        exact absurd member not_mem_nil
      · rw [components_word empty inside, mem_singleton] at member
        subst member
        exact ⟨empty, inside, fun _ letter => letter⟩

theorem components_dropWhile (path : List α) : components sep (path.dropWhile (· == sep)) = components sep path := by
  induction path with
  | nil => rfl
  | cons letter path ih =>
    rw [dropWhile_cons]
    split
    next same => rw [ih, beq_iff_eq.mp same, components_sep]
    next => rfl

theorem components_takeWhile {path : List α} (nonempty : path ≠ []) (start : path.head? ≠ some sep) :
    components sep path = path.takeWhile (· != sep) :: components sep (path.dropWhile (· != sep)) := by
  have word : path.takeWhile (· != sep) ≠ [] := by
    cases path with
    | nil => exact absurd rfl nonempty
    | cons letter path =>
      have other : (letter != sep) = true := bne_iff_ne.mpr fun same => start (congrArg some same)
      rw [takeWhile_cons, if_pos other]
      exact cons_ne_nil _ _
  have whole : sep ∉ path.takeWhile (· != sep) := by
    intro member
    have := mem_takeWhile_imp member
    simp at this
  have parts := takeWhile_append_dropWhile (p := (· != sep)) (l := path)
  cases rest : path.dropWhile (· != sep) with
  | nil =>
    rw [rest, append_nil] at parts
    rw [components_nil, parts, components_word nonempty (parts ▸ whole)]
  | cons letter back =>
    have stopped : letter = sep := by
      have := head?_dropWhile_not (· != sep) path
      rw [rest] at this
      simpa using this
    rw [rest, stopped] at parts
    rw [stopped, components_sep]
    calc components sep path
      _ = components sep (path.takeWhile (· != sep) ++ sep :: back) := by rw [parts]
      _ = path.takeWhile (· != sep) :: components sep back := by
        rw [components_append, components_word word whole]
        rfl

theorem components_trailing (path : List α) (n : Nat) :
    components sep (path ++ List.replicate n sep) = components sep path := by
  induction n with
  | zero => rw [replicate_zero, append_nil]
  | succ n ih => rw [replicate_succ', ← append_assoc, components_append, ih, components_nil, append_nil]

theorem components_flatMap (words : ∀ word ∈ path, word ≠ [] ∧ sep ∉ word) :
    components sep (path.flatMap (sep :: ·)) = path := by
  induction path with
  | nil => exact components_nil
  | cons word path ih =>
    obtain ⟨nonempty, whole⟩ := words word (mem_cons_self ..)
    have rest := ih fun other member => words other (mem_cons_of_mem _ member)
    rw [flatMap_cons, cons_append, components_sep]
    cases path with
    | nil => rw [flatMap_nil, append_nil, components_word nonempty whole]
    | cons next path =>
      rw [flatMap_cons, cons_append, components_sep] at rest
      rw [flatMap_cons, cons_append, components_append, components_word nonempty whole, rest]
      rfl

theorem components_render (words : ∀ word ∈ path, word ≠ [] ∧ sep ∉ word) :
    components sep (render sep path) = path := by
  unfold render
  split
  next empty => rw [components_sep, components_nil, empty]
  next => exact components_flatMap words

end Components

section Resolve
variable {dot : α}

theorem mem_resolveStep {stack : List (List α)} {other : List α} (member : other ∈ resolveStep dot stack component) :
    other ∈ stack ∨ (other = component ∧ component ≠ [dot] ∧ component ≠ [dot, dot]) := by
  unfold resolveStep at member
  split at member
  next => exact .inl member
  split at member
  next => exact .inl ((dropLast_sublist stack).mem member)
  next notDot notDots =>
    cases mem_append.mp member with
    | inl old => exact .inl old
    | inr new => exact .inr ⟨mem_singleton.mp new, notDot, notDots⟩

theorem mem_foldl_resolveStep {stack : List (List α)} (member : component ∈ path.foldl (resolveStep dot) stack) :
    component ∈ stack ∨ (component ∈ path ∧ component ≠ [dot] ∧ component ≠ [dot, dot]) := by
  induction path generalizing stack with
  | nil => exact .inl member
  | cons first path ih =>
    obtain held | ⟨later, names⟩ := ih member
    · obtain old | ⟨rfl, names⟩ := mem_resolveStep held
      · exact .inl old
      · exact .inr ⟨mem_cons_self .., names⟩
    · exact .inr ⟨mem_cons_of_mem _ later, names⟩

theorem mem_resolve (member : component ∈ resolve dot path) :
    component ∈ path ∧ component ≠ [dot] ∧ component ≠ [dot, dot] :=
  (mem_foldl_resolveStep member).resolve_left not_mem_nil

theorem resolve_names (names : ∀ word ∈ path, word ≠ [dot] ∧ word ≠ [dot, dot]) : resolve dot path = path := by
  have steps : ∀ rest stack : List (List α), (∀ word ∈ rest, word ≠ [dot] ∧ word ≠ [dot, dot]) →
      rest.foldl (resolveStep dot) stack = stack ++ rest := by
    intro rest
    induction rest with
    | nil => intro stack _; exact (append_nil stack).symm
    | cons word rest ih =>
      intro stack plain
      obtain ⟨notDot, notDots⟩ := plain word (mem_cons_self ..)
      rw [foldl_cons, resolveStep, if_neg notDot, if_neg notDots,
        ih _ fun other member => plain other (mem_cons_of_mem _ member), append_assoc]
      rfl
  exact steps path [] names

end Resolve

end GingerOs.Paths
