import SsaCompiler.Ir.Id

/-!
# Runs of computations

Bodies are built, expressions lowered and programs lowered by computations that change a state and may
end early.  The two ways in which such a computation can end are relations here, so that a run of a
sequence is put together from the runs of its parts:

    Gives x s a s'       run from the state `s`, `x` ends with the result `a` in the state `s'`
    Fails x s e          run from the state `s`, `x` ends early with `e`

A run that has given a result is taken apart into those of its parts by `gives_bind_iff`.  What each part
keeps of the state, a sequence keeps (`Preserves.bind`).
-/

namespace SsaCompiler

variable {ε σ α β : Type}

/-- The end of a run: a result or the early end, and the state that is left. -/
def outcome (x : ExceptT ε (StateM σ) α) (s : σ) : Except ε α × σ :=
  ExceptT.run x s

def Gives (x : ExceptT ε (StateM σ) α) (s : σ) (a : α) (s' : σ) : Prop :=
  outcome x s = (.ok a, s')

def Fails (x : ExceptT ε (StateM σ) α) (s : σ) (e : ε) : Prop :=
  ∃ s', outcome x s = (.error e, s')

/-- A run has one result. -/
theorem Gives.unique {x : ExceptT ε (StateM σ) α} {s s' s'' : σ} {a b : α} (h : Gives x s a s')
    (h' : Gives x s b s'') : a = b ∧ s' = s'' := by
  unfold Gives at *
  rw [h] at h'
  cases h'
  exact ⟨rfl, rfl⟩

/-- A run with a result has not ended early. -/
theorem Gives.not_fails {x : ExceptT ε (StateM σ) α} {s s' : σ} {a : α} {e : ε} (h : Gives x s a s') :
    ¬ Fails x s e := by
  rintro ⟨t, ht⟩
  unfold Gives at h
  rw [h] at ht
  cases ht

theorem exists_gives_of_isOk {x : ExceptT ε (StateM σ) α} {s : σ} (h : (outcome x s).1.isOk = true) :
    ∃ a s', Gives x s a s' := by
  unfold Gives
  generalize outcome x s = result at h
  obtain ⟨_ | a, s'⟩ := result
  · cases h
  · exact ⟨a, s', rfl⟩

/-! ## Sequences -/

theorem outcome_bind (x : ExceptT ε (StateM σ) α) (f : α → ExceptT ε (StateM σ) β) (s : σ) :
    outcome (x >>= f) s =
      match outcome x s with
      | (.ok a, s') => outcome (f a) s'
      | (.error e, s') => (.error e, s') := by
  show ExceptT.bindCont f (outcome x s).1 (outcome x s).2 = _
  rcases outcome x s with ⟨_ | _, s'⟩ <;> rfl

theorem Gives.bind {x : ExceptT ε (StateM σ) α} {f : α → ExceptT ε (StateM σ) β} {s s' s'' : σ} {a : α}
    {b : β} (hx : Gives x s a s') (hf : Gives (f a) s' b s'') : Gives (x >>= f) s b s'' := by
  unfold Gives at *
  rw [outcome_bind, hx]
  exact hf

theorem Fails.bind {x : ExceptT ε (StateM σ) α} {s : σ} {e : ε} (hx : Fails x s e)
    (f : α → ExceptT ε (StateM σ) β) : Fails (x >>= f) s e := by
  obtain ⟨s', hx⟩ := hx
  refine ⟨s', ?_⟩
  rw [outcome_bind, hx]

theorem Gives.bind_fails {x : ExceptT ε (StateM σ) α} {f : α → ExceptT ε (StateM σ) β} {s s' : σ} {a : α}
    {e : ε} (hx : Gives x s a s') (hf : Fails (f a) s' e) : Fails (x >>= f) s e := by
  obtain ⟨s'', hf⟩ := hf
  refine ⟨s'', ?_⟩
  rw [outcome_bind, hx]
  exact hf

theorem discard_eq_bind (x : ExceptT ε (StateM σ) α) : discard x = x >>= fun _ => pure () := by
  unfold Functor.discard
  rw [LawfulFunctor.map_const]
  exact (bind_pure_comp _ x).symm

theorem Gives.discard {x : ExceptT ε (StateM σ) α} {s s' : σ} {a : α} (hx : Gives x s a s') :
    Gives (discard x) s () s' := by
  rw [discard_eq_bind]
  exact hx.bind rfl

/-! ## Single steps -/

theorem gives_pure (a : α) (s : σ) : Gives (pure a : ExceptT ε (StateM σ) α) s a s := rfl

theorem gives_get (s : σ) : Gives (get : ExceptT ε (StateM σ) σ) s s s := rfl

theorem gives_modify (f : σ → σ) (s : σ) : Gives (modify f : ExceptT ε (StateM σ) PUnit) s ⟨⟩ (f s) := rfl

/-! ## What a run with a result went through -/

/-- What a sequence without a state went through. -/
theorem bind_eq_ok_iff {x : Except ε α} {f : α → Except ε β} {b : β} :
    (x >>= f) = .ok b ↔ ∃ a, x = .ok a ∧ f a = .ok b := by
  cases x with
  | error e => exact ⟨nofun, fun ⟨_, h, _⟩ => nomatch h⟩
  | ok a => exact ⟨fun h => ⟨a, rfl, h⟩, fun ⟨_, ha, h⟩ => by cases ha; exact h⟩

theorem gives_bind_iff {x : ExceptT ε (StateM σ) α} {f : α → ExceptT ε (StateM σ) β} {s s'' : σ} {b : β} :
    Gives (x >>= f) s b s'' ↔ ∃ a s', Gives x s a s' ∧ Gives (f a) s' b s'' := by
  constructor
  · intro h
    unfold Gives at h
    rw [outcome_bind] at h
    rcases hx : outcome x s with ⟨_ | a, s'⟩
    · rw [hx] at h
      cases h
    · rw [hx] at h
      exact ⟨a, s', hx, h⟩
  · rintro ⟨a, s', hx, hf⟩
    exact hx.bind hf

theorem gives_pure_iff {a b : α} {s s' : σ} : Gives (pure a : ExceptT ε (StateM σ) α) s b s' ↔ b = a ∧ s' = s := by
  constructor
  · intro h
    cases h
    exact ⟨rfl, rfl⟩
  · rintro ⟨rfl, rfl⟩
    exact gives_pure _ _

theorem gives_get_iff {s a s' : σ} : Gives (get : ExceptT ε (StateM σ) σ) s a s' ↔ a = s ∧ s' = s := by
  constructor
  · intro h
    cases h
    exact ⟨rfl, rfl⟩
  · rintro ⟨rfl, rfl⟩
    exact gives_get _

theorem gives_modify_iff {f : σ → σ} {s s' : σ} {u : PUnit} :
    Gives (modify f : ExceptT ε (StateM σ) PUnit) s u s' ↔ s' = f s := by
  constructor
  · intro h
    cases h
    rfl
  · rintro rfl
    exact gives_modify _ _

/-- A computation without a state gives its result and leaves the state. -/
theorem gives_liftM_iff {x : Except ε α} {s s' : σ} {a : α} :
    Gives (liftM x : ExceptT ε (StateM σ) α) s a s' ↔ x = .ok a ∧ s' = s := by
  cases x with
  | error e => exact ⟨nofun, nofun⟩
  | ok b =>
    constructor
    · intro h
      cases h
      exact ⟨rfl, rfl⟩
    · rintro ⟨⟨⟩, rfl⟩
      rfl

theorem not_gives_throw {e : ε} {s s' : σ} {a : α} : ¬ Gives (throw e : ExceptT ε (StateM σ) α) s a s' := nofun

theorem gives_discard_iff {x : ExceptT ε (StateM σ) α} {s s' : σ} {u : PUnit} :
    Gives (discard x) s u s' ↔ ∃ a, Gives x s a s' := by
  rw [discard_eq_bind, gives_bind_iff]
  constructor
  · rintro ⟨a, t, hx, ht⟩
    obtain ⟨-, rfl⟩ := gives_pure_iff.mp ht
    exact ⟨a, hx⟩
  · rintro ⟨a, hx⟩
    exact ⟨a, s', hx, gives_pure _ _⟩

/-- Where a condition ends a computation early, it did not hold. -/
theorem gives_unless_iff {c : Prop} [Decidable c] {e : ε} {x : ExceptT ε (StateM σ) α} {s s' : σ} {a : α} :
    Gives (if c then throw e >>= fun _ : PUnit => x else x) s a s' ↔ ¬ c ∧ Gives x s a s' := by
  split
  · next hc =>
    refine ⟨fun h => ?_, fun h => absurd hc h.1⟩
    obtain ⟨u, t, hthrow, -⟩ := gives_bind_iff.mp h
    exact absurd hthrow not_gives_throw
  · next hc => exact ⟨fun h => ⟨hc, h⟩, And.right⟩

/-- What each step of a row keeps, the steps before it in view, the whole row keeps. -/
theorem gives_forM {f : α → ExceptT ε (StateM σ) PUnit} {I : List α → σ → Prop}
    (hstep : ∀ done a s u s', I done s → Gives (f a) s u s' → I (done ++ [a]) s') {xs done : List α} {s s' : σ}
    {u : PUnit} (h : I done s) (hgives : Gives (xs.forM f) s u s') : I (done ++ xs) s' := by
  induction xs generalizing done s with
  | nil =>
    obtain ⟨-, rfl⟩ := gives_pure_iff.mp hgives
    rw [List.append_nil]
    exact h
  | cons x xs ih =>
    obtain ⟨v, t, hone, hrest⟩ := gives_bind_iff.mp hgives
    have htail := ih (hstep done x s v t h hone) hrest
    rw [List.append_assoc] at htail
    exact htail

/-! ## What runs keep -/

/-- Whether every run with a result keeps a property of the state. -/
def Preserves (P : σ → Prop) (x : ExceptT ε (StateM σ) α) : Prop :=
  ∀ s a s', Gives x s a s' → P s → P s'

section Preserves

variable {P : σ → Prop}

theorem preserves_pure (a : α) : Preserves P (pure a : ExceptT ε (StateM σ) α) := by
  intro s b s' h hs
  obtain ⟨-, rfl⟩ := gives_pure_iff.mp h
  exact hs

theorem preserves_throw (e : ε) : Preserves P (throw e : ExceptT ε (StateM σ) α) :=
  fun _ _ _ h => absurd h not_gives_throw

theorem preserves_get : Preserves P (get : ExceptT ε (StateM σ) σ) := by
  intro s a s' h hs
  obtain ⟨-, rfl⟩ := gives_get_iff.mp h
  exact hs

theorem preserves_modify {f : σ → σ} (hf : ∀ s, P s → P (f s)) :
    Preserves P (modify f : ExceptT ε (StateM σ) PUnit) := by
  intro s u s' h hs
  obtain rfl := gives_modify_iff.mp h
  exact hf s hs

theorem Preserves.bind {x : ExceptT ε (StateM σ) α} {f : α → ExceptT ε (StateM σ) β} (hx : Preserves P x)
    (hf : ∀ a, Preserves P (f a)) : Preserves P (x >>= f) := by
  intro s b s'' h hs
  obtain ⟨a, s', h₁, h₂⟩ := gives_bind_iff.mp h
  exact hf a s' b s'' h₂ (hx s a s' h₁ hs)

theorem Preserves.discard {x : ExceptT ε (StateM σ) α} (hx : Preserves P x) : Preserves P (discard x) := by
  rw [discard_eq_bind]
  exact hx.bind fun _ => preserves_pure _

theorem preserves_forM {f : α → ExceptT ε (StateM σ) PUnit} (hf : ∀ a, Preserves P (f a)) (as : List α) :
    Preserves P (as.forM f) := by
  induction as with
  | nil => exact preserves_pure _
  | cons a as ih => exact (hf a).bind fun _ => ih

end Preserves

end SsaCompiler
