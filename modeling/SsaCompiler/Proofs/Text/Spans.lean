/-!
# Spans

A row is read in spans: as many entries with a property as there are, and then the rest.
-/

namespace SsaCompiler.Text

variable {α : Type} {p : α → Bool} {span rest : List α}

theorem takeWhile_span (hspan : ∀ c ∈ span, p c = true) (hrest : ∀ c ∈ rest.head?, p c = false) :
    (span ++ rest).takeWhile p = span := by
  rw [List.takeWhile_append_of_pos hspan]
  cases rest with
  | nil => simp
  | cons c rest => simp [hrest c rfl]

theorem dropWhile_span (hspan : ∀ c ∈ span, p c = true) (hrest : ∀ c ∈ rest.head?, p c = false) :
    (span ++ rest).dropWhile p = rest := by
  rw [List.dropWhile_append_of_pos hspan]
  cases rest with
  | nil => rfl
  | cons c rest => simp [hrest c rfl]

/-- Every row is a span and a rest that does not continue it. -/
theorem exists_span (p : α → Bool) (row : List α) :
    ∃ span rest, row = span ++ rest ∧ (∀ c ∈ span, p c = true) ∧ ∀ c ∈ rest.head?, p c = false := by
  refine ⟨row.takeWhile p, row.dropWhile p, List.takeWhile_append_dropWhile.symm, fun c hc => ?_, fun c hc => ?_⟩
  · exact List.all_eq_true.mp List.all_takeWhile c hc
  · have := List.head?_dropWhile_not p row
    rwa [Option.mem_def.mp hc] at this

/-- The entries before the first of a kind are told by the row. -/
theorem append_cons_inj {a : α} {xs ys us vs : List α} (hx : a ∉ xs) (hy : a ∉ ys) (h : xs ++ a :: us = ys ++ a :: vs) :
    xs = ys ∧ us = vs := by
  induction xs generalizing ys with
  | nil =>
    cases ys with
    | nil =>
      cases h
      exact ⟨rfl, rfl⟩
    | cons y ys =>
      cases h
      exact absurd List.mem_cons_self hy
  | cons x xs ih =>
    cases ys with
    | nil =>
      cases h
      exact absurd List.mem_cons_self hx
    | cons y ys =>
      obtain ⟨rfl, htail⟩ := List.cons.inj h
      have hx' := List.not_mem_of_not_mem_cons hx
      have hy' := List.not_mem_of_not_mem_cons hy
      obtain ⟨rfl, rfl⟩ := ih hx' hy' htail
      exact ⟨rfl, rfl⟩

/-- Groups that each begin with an entry of a kind, and have no other of it, are told by the row they make. -/
theorem groups_inj {gs hs : List (List α)} (hgs : ∀ g ∈ gs, ∃ a t, g = a :: t ∧ p a = true ∧ ∀ c ∈ t, p c = false)
    (hhs : ∀ g ∈ hs, ∃ a t, g = a :: t ∧ p a = true ∧ ∀ c ∈ t, p c = false) (h : gs.flatten = hs.flatten) : gs = hs := by
  have hhead {gs : List (List α)} (hgs : ∀ g ∈ gs, ∃ a t, g = a :: t ∧ p a = true ∧ ∀ c ∈ t, p c = false) :
      ∀ c ∈ gs.flatten.head?, (!p c) = false := by
    cases gs with
    | nil => nofun
    | cons g gs =>
      obtain ⟨a, t, rfl, ha, -⟩ := hgs g List.mem_cons_self
      rintro c hc
      cases hc
      rw [ha]
      rfl
  induction gs generalizing hs with
  | nil =>
    cases hs with
    | nil => rfl
    | cons g hs =>
      obtain ⟨a, t, rfl, -, -⟩ := hhs g List.mem_cons_self
      cases h
  | cons g gs ih =>
    obtain ⟨a, t, rfl, ha, ht⟩ := hgs g List.mem_cons_self
    cases hs with
    | nil => cases h
    | cons g' hs =>
      obtain ⟨a', t', rfl, ha', ht'⟩ := hhs g' List.mem_cons_self
      have hgs' := (List.forall_mem_cons.mp hgs).2
      have hhs' := (List.forall_mem_cons.mp hhs).2
      obtain ⟨rfl, hrest⟩ := List.cons.inj h
      have hspan {t : List α} (ht : ∀ c ∈ t, p c = false) : ∀ c ∈ t, (!p c) = true := fun c hc => by rw [ht c hc]; rfl
      have htake := takeWhile_span (hspan ht) (hhead hgs')
      have hdrop := dropWhile_span (hspan ht) (hhead hgs')
      rw [show t ++ gs.flatten = t' ++ hs.flatten from hrest] at htake hdrop
      rw [takeWhile_span (hspan ht') (hhead hhs')] at htake
      rw [dropWhile_span (hspan ht') (hhead hhs')] at hdrop
      rw [htake, ih hgs' hhs' hdrop.symm]

end SsaCompiler.Text
