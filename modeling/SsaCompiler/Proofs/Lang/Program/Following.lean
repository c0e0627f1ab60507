import SsaCompiler.Proofs.Lang.Program.Walk

/-!
# Reading by position follows reading by cursors

A `Tape` is a row of tokens that has an end mark, parted at the first.  A place on it that does not lie behind this
end mark is a cursor as well, and what is read from it by position is compared with what is read by cursors:

    Keeps h            the head has stood, looked and gone round in the part up to the first end mark only, every round
                       going on
    Ends m x p Q       from the place `p`, `x` goes on so that `Q` holds, or ends with the syntax error that `m` is
    Follows n x r      from all places with fewer than `n` tokens left, `x` reads what the reader `r` reads

`Ends` says that there is an end: neither does `x` look behind the row nor does it run out of rounds.  Each primitive
has a rule for it, sequences have `Ends.bind`, and loops have one rule for all: an invariant of the rounds, each of
which has to read a token (`ends_loop`).
-/

namespace SsaCompiler.Lang

namespace Reader

variable {α β : Type} {r : Reader α} {g : α → Reader β} {c c' : Cursor}

theorem bind_of_error {e : SyntaxError} (h : r c = .error e) : (r >>= g) c = .error e := by
  show (r c).bind _ = _
  rw [h]
  rfl

theorem bind_of_ok {a : α} (h : r c = .ok (a, c')) : (r >>= g) c = g a c' := by
  show (r c).bind _ = _
  rw [h]
  rfl

end Reader

/-- A row of tokens, parted at its first end mark. -/
structure Tape where
  tokens : List Token
  mark : Token
  after : List Token
  noMarks : ∀ t ∈ tokens, t.kind ≠ .endMark
  isMark : mark.kind = .endMark

namespace Tape

variable (tape : Tape)

def row : List Token :=
  tape.tokens ++ tape.mark :: tape.after

/-- The number of tokens before the first end mark. -/
def size : Nat :=
  tape.tokens.length

/-- The token at an index, the first end mark standing for whatever is behind the row. -/
def tokenAt (p : Nat) : Token :=
  tape.row[p]?.getD tape.mark

/-- A place as a cursor. -/
def cursor (p : Nat) : Cursor :=
  { rest := tape.tokens.drop p, last := (tape.tokenAt (p - 1)).line, endLine := tape.mark.line }

/-- What a head keeps: it does not go behind the first end mark, nor look behind it, and every round of a loop that
goes on has read a token. -/
structure Keeps (h : Head) : Prop where
  pos : h.pos ≤ tape.size
  places : ∀ p ∈ h.places, p ≤ tape.size
  seen : ∀ i ∈ h.seen, i ≤ tape.size
  rounds : ∀ r ∈ h.rounds, r.1 < r.2

section Places

variable {tape} {p : Nat}

theorem row_getElem? (hp : p ≤ tape.size) : tape.row[p]? = some (tape.tokenAt p) := by
  have hlt : p < tape.row.length := by
    simp only [row, List.length_append, List.length_cons, size] at hp ⊢
    omega
  rw [tokenAt, List.getElem?_eq_getElem hlt, Option.getD_some]

theorem tokenAt_size : tape.tokenAt tape.size = tape.mark := by
  simp [tokenAt, row, size]

theorem drop_eq (hp : p < tape.size) : tape.tokens.drop p = tape.tokenAt p :: tape.tokens.drop (p + 1) := by
  rw [List.drop_eq_getElem_cons hp]
  congr 1
  simp [tokenAt, row, List.getElem?_append_left hp, List.getElem?_eq_getElem hp]

theorem tokenAt_ne (hp : p < tape.size) : (tape.tokenAt p).kind ≠ .endMark := by
  refine tape.noMarks _ (List.mem_of_mem_drop (i := p) ?_)
  rw [drop_eq hp]
  exact List.mem_cons_self

/-- The head stands before the first end mark exactly if it stands before an end mark. -/
theorem tokenAt_kind_iff (hp : p ≤ tape.size) : (tape.tokenAt p).kind = .endMark ↔ p = tape.size := by
  constructor
  · intro h
    exact Nat.le_antisymm hp (Nat.le_of_not_lt fun hlt => tokenAt_ne hlt h)
  · rintro rfl
    rw [tokenAt_size]
    exact tape.isMark

/-- Any other token stands before the first end mark. -/
theorem lt_size {kind : TokenKind} (hkind : kind ≠ .endMark) (hp : p ≤ tape.size)
    (h : (tape.tokenAt p).kind = kind) : p < tape.size :=
  Nat.lt_of_le_of_ne hp fun heq => hkind (h.symm.trans ((tokenAt_kind_iff hp).mpr heq))

theorem cursor_eq (hp : p < tape.size) :
    tape.cursor p = ⟨tape.tokenAt p :: (tape.cursor (p + 1)).rest, (tape.cursor p).last, tape.mark.line⟩ := by
  unfold cursor
  rw [drop_eq hp]

theorem cursor_size : tape.cursor tape.size = ⟨[], (tape.cursor tape.size).last, tape.mark.line⟩ := by
  unfold cursor size
  rw [List.drop_length]

theorem cursor_line (hp : p ≤ tape.size) : (tape.cursor p).line = (tape.tokenAt p).line := by
  obtain rfl | hlt := Nat.eq_or_lt_of_le hp
  · rw [cursor_size, tokenAt_size]
    rfl
  · rw [cursor_eq hlt]
    rfl

theorem cursor_describe (hp : p ≤ tape.size) : (tape.cursor p).describe = (tape.tokenAt p).describe := by
  obtain rfl | hlt := Nat.eq_or_lt_of_le hp
  · rw [cursor_size, tokenAt_size, Token.describe, tape.isMark]
    rfl
  · rw [cursor_eq hlt]
    rfl

theorem cursor_head_line (hp : p ≤ tape.size) :
    ((tape.cursor p).rest.head?.map (·.line)).getD tape.mark.line = (tape.tokenAt p).line := by
  obtain rfl | hlt := Nat.eq_or_lt_of_le hp
  · rw [cursor_size, tokenAt_size]
    rfl
  · rw [cursor_eq hlt]
    rfl

theorem cursor_skip? {kind : TokenKind} (hkind : kind ≠ .endMark) (hp : p ≤ tape.size) :
    (tape.cursor p).skip? kind = if (tape.tokenAt p).kind = kind then some (tape.cursor (p + 1)) else none := by
  obtain rfl | hlt := Nat.eq_or_lt_of_le hp
  · rw [cursor_size, tokenAt_size, tape.isMark, if_neg hkind.symm]
    rfl
  · rw [cursor_eq hlt]
    rfl

end Places

/-! ## Following -/

section Ends

variable {tape} {α β γ δ : Type} {m : Except SyntaxError γ} {m' : Except SyntaxError δ} {p : Nat}

variable (tape) in
/-- From a place, what is read by position either goes on with a result and another place, or ends with the syntax
error that `m` is.  It never leaves the row, and it has an end. -/
def Ends (m : Except SyntaxError γ) (x : Walk α) (p : Nat) (Q : α → Nat → Prop) : Prop :=
  ∀ h : Head, tape.Keeps h → h.pos = p →
    (∃ a h', Gives x h a h' ∧ tape.Keeps h' ∧ Q a h'.pos) ∨
      ∃ e h', outcome x h = (.error (.grammar e), h') ∧ tape.Keeps h' ∧ m = .error e

variable {x : Walk α} {f : α → Walk β} {P Q : α → Nat → Prop} {R : β → Nat → Prop}

theorem ends_pure {a : α} (hQ : Q a p) : tape.Ends m (pure a) p Q := by
  rintro h hkeeps rfl
  exact .inl ⟨a, h, gives_pure a h, hkeeps, hQ⟩

theorem ends_fail {cause : SyntaxCause} {line : Nat} (hm : m = .error ⟨cause, line⟩) :
    tape.Ends m (Walk.fail cause line) p Q := by
  rintro h hkeeps rfl
  exact .inr ⟨_, h, rfl, hkeeps, hm⟩

theorem Ends.bind (hx : tape.Ends m x p P) (hf : ∀ a p', p' ≤ tape.size → P a p' → tape.Ends m (f a) p' R) :
    tape.Ends m (x >>= f) p R := by
  intro h hkeeps hp
  rcases hx h hkeeps hp with ⟨a, h₁, hgives, hkeeps₁, hP⟩ | ⟨e, h₁, hfails, hrest⟩
  · rcases hf a h₁.pos hkeeps₁.pos hP h₁ hkeeps₁ rfl with ⟨b, h₂, hgives', hrest⟩ | ⟨e, h₂, hfails, hrest⟩
    · exact .inl ⟨b, h₂, hgives.bind hgives', hrest⟩
    · refine .inr ⟨e, h₂, ?_, hrest⟩
      unfold Gives at hgives
      rw [outcome_bind, hgives]
      exact hfails
  · refine .inr ⟨e, h₁, ?_, hrest⟩
    rw [outcome_bind, hfails]

/-- Only the errors of `m` count. -/
theorem Ends.imp (hx : tape.Ends m x p P) (hm : ∀ e, m = .error e → m' = .error e)
    (hQ : ∀ a p', P a p' → Q a p') : tape.Ends m' x p Q := by
  intro h hkeeps hp
  rcases hx h hkeeps hp with ⟨a, h₁, hgives, hkeeps₁, hP⟩ | ⟨e, h₁, hfails, hkeeps₁, herror⟩
  · exact .inl ⟨a, h₁, hgives, hkeeps₁, hQ a _ hP⟩
  · exact .inr ⟨e, h₁, hfails, hkeeps₁, hm e herror⟩

theorem Ends.mono (hx : tape.Ends m x p P) (hQ : ∀ a p', P a p' → Q a p') : tape.Ends m x p Q :=
  hx.imp (fun _ => id) hQ

/-- What is made of a result by position and by cursors. -/
theorem Ends.map {y : Except SyntaxError (α × Cursor)} {L : Nat → Prop}
    (hx : tape.Ends y x p fun a p' => L p' ∧ y = .ok (a, tape.cursor p')) (k : α → β) :
    tape.Ends (y.map fun r => (k r.1, r.2)) (x >>= fun a => pure (k a)) p fun b p' =>
      L p' ∧ (y.map fun r => (k r.1, r.2)) = .ok (b, tape.cursor p') := by
  refine (hx.imp ?_ fun _ _ => id).bind ?_
  · rintro e rfl
    rfl
  · rintro a p' - ⟨hL, rfl⟩
    exact ends_pure ⟨hL, rfl⟩

/-! ## Looking and going on -/

theorem ends_token {i : Nat} (hi : i ≤ tape.size) :
    tape.Ends m (Walk.token tape.row i) p fun t p' => t = tape.tokenAt i ∧ p' = p := by
  rintro h hkeeps rfl
  refine .inl ⟨_, { h with seen := i :: h.seen }, ?_, ?_, rfl, rfl⟩
  · unfold Walk.token
    rw [row_getElem? hi]
    rfl
  · exact ⟨hkeeps.pos, hkeeps.places, List.forall_mem_cons.mpr ⟨hi, hkeeps.seen⟩, hkeeps.rounds⟩

theorem ends_get {g : Head → Walk β} (hg : ∀ h, h.pos = p → tape.Ends m (g h) p R) : tape.Ends m (get >>= g) p R := by
  intro h hkeeps hp
  have hrest := hg h hp h hkeeps hp
  have hget : outcome (get >>= g) h = outcome (g h) h := rfl
  unfold Gives at *
  rwa [hget]

theorem ends_peek (hp : p ≤ tape.size) :
    tape.Ends m (Walk.peek tape.row 0) p fun t p' => t = tape.tokenAt p ∧ p' = p := by
  unfold Walk.peek
  refine ends_get fun h hpos => ?_
  have hindex : min (h.pos + 0) (tape.row.length - 1) = p := by
    simp only [row, List.length_append, List.length_cons, size] at hp ⊢
    omega
  rw [hindex]
  exact ends_token hp

theorem ends_peek_one (hp : p < tape.size) :
    tape.Ends m (Walk.peek tape.row 1) p fun t p' => t = tape.tokenAt (p + 1) ∧ p' = p := by
  unfold Walk.peek
  refine ends_get fun h hpos => ?_
  have hindex : min (h.pos + 1) (tape.row.length - 1) = p + 1 := by
    simp only [row, List.length_append, List.length_cons, size] at hp ⊢
    omega
  rw [hindex]
  exact ends_token hp

theorem ends_previous (hp : p ≤ tape.size) :
    tape.Ends m (Walk.previous tape.row) p fun t p' => t = tape.tokenAt (p - 1) ∧ p' = p := by
  unfold Walk.previous
  refine ends_get fun h hpos => ?_
  rw [hpos]
  exact ends_token (Nat.le_trans (Nat.sub_le p 1) hp)

theorem ends_advance (hp : p < tape.size) :
    tape.Ends m (Walk.advance tape.row) p fun t p' => t = tape.tokenAt p ∧ p' = p + 1 := by
  refine (ends_peek (Nat.le_of_lt hp)).bind ?_
  rintro _ p - ⟨rfl, rfl⟩
  rw [if_neg (tokenAt_ne hp)]
  rintro h hkeeps rfl
  refine .inl ⟨_, { h with pos := h.pos + 1, places := (h.pos + 1) :: h.places }, rfl, ?_, rfl, rfl⟩
  exact ⟨hp, List.forall_mem_cons.mpr ⟨hp, hkeeps.places⟩, hkeeps.seen, hkeeps.rounds⟩

theorem ends_check (kind : TokenKind) (hp : p ≤ tape.size) :
    tape.Ends m (Walk.check tape.row kind) p fun b p' => b = decide ((tape.tokenAt p).kind = kind) ∧ p' = p := by
  refine (ends_peek hp).bind ?_
  rintro _ p - ⟨rfl, rfl⟩
  exact ends_pure ⟨rfl, rfl⟩

theorem ends_skips {kind : TokenKind} (hkind : kind ≠ .endMark) (hp : p ≤ tape.size) :
    tape.Ends m (Walk.skips tape.row kind) p fun b p' =>
      (b = true ∧ (tape.tokenAt p).kind = kind ∧ p < tape.size ∧ p' = p + 1) ∨
        (b = false ∧ (tape.tokenAt p).kind ≠ kind ∧ p' = p) := by
  refine (ends_check kind hp).bind ?_
  rintro _ p - ⟨rfl, rfl⟩
  by_cases h : (tape.tokenAt p).kind = kind
  · have hlt := lt_size hkind hp h
    rw [decide_eq_true h, if_pos rfl]
    refine (ends_advance hlt).bind ?_
    rintro _ _ - ⟨-, rfl⟩
    exact ends_pure (.inl ⟨rfl, h, hlt, rfl⟩)
  · rw [decide_eq_false h, if_neg Bool.false_ne_true]
    exact ends_pure (.inr ⟨rfl, h, rfl⟩)

theorem ends_expect {place : Place} (hp : p ≤ tape.size)
    (hm : ∀ e, Reader.expect place (tape.cursor p) = .error e → m = .error e) :
    tape.Ends m (Walk.expect tape.row place) p fun t p' =>
      t = tape.tokenAt p ∧ (tape.tokenAt p).kind = place.kind ∧ p < tape.size ∧ p' = p + 1 := by
  have hkind : place.kind ≠ .endMark := by cases place <;> nofun
  unfold Reader.expect at hm
  refine (ends_check _ hp).bind ?_
  rintro _ p - ⟨rfl, rfl⟩
  by_cases h : (tape.tokenAt p).kind = place.kind
  · have hlt := lt_size hkind hp h
    rw [decide_eq_true h, if_pos rfl]
    refine (ends_advance hlt).mono ?_
    rintro _ _ ⟨rfl, rfl⟩
    exact ⟨rfl, h, hlt, rfl⟩
  rw [decide_eq_false h, if_neg Bool.false_ne_true]
  refine (ends_peek hp).bind ?_
  rintro _ p - ⟨rfl, rfl⟩
  obtain rfl | hlt := Nat.eq_or_lt_of_le hp
  · -- an end mark is placed by the token before it
    rw [tokenAt_size, if_pos tape.isMark]
    refine (ends_previous hp).bind ?_
    rintro _ p - ⟨rfl, rfl⟩
    refine ends_fail (hm _ ?_)
    rw [cursor_size, Token.describe, tape.isMark]
    rfl
  · rw [if_neg (tokenAt_ne hlt)]
    refine ends_fail (hm _ ?_)
    rw [cursor_eq hlt]
    exact if_neg h

/-- A round that has read a token may be noted. -/
theorem ends_round {start : Nat} (hlt : start < p) :
    tape.Ends m (modify fun h : Head => { h with rounds := (start, h.pos) :: h.rounds }) p fun _ p' => p' = p := by
  rintro h hkeeps rfl
  refine .inl ⟨(), _, gives_modify _ h, ?_, rfl⟩
  exact ⟨hkeeps.pos, hkeeps.places, hkeeps.seen, List.forall_mem_cons.mpr ⟨hlt, hkeeps.rounds⟩⟩

/-- **A loop comes to an end** where every round that goes on reads a token, and keeps what each round keeps. -/
theorem ends_loop {step : α → Walk (α ⊕ β)} {I : α → Nat → Prop} {n : Nat}
    (hstep : ∀ a p, p ≤ tape.size → I a p → tape.Ends m (step a) p fun r p' =>
      match r with
      | .inl a' => p < p' ∧ I a' p'
      | .inr b => R b p')
    {a : α} (hp : p ≤ tape.size) (hI : I a p) (hn : tape.size - p < n) : tape.Ends m (Walk.loop step n a) p R := by
  induction n generalizing a p with
  | zero => exact absurd hn (Nat.not_lt_zero _)
  | succ n ih =>
    rw [Walk.loop]
    refine ends_get fun h hpos => (hstep a p hp hI).bind fun r p' hp' hr => ?_
    cases r with
    | inr b => exact ends_pure hr
    | inl a' =>
      obtain ⟨hlt, hI'⟩ := hr
      refine (ends_round (hpos ▸ hlt)).bind ?_
      rintro _ _ - rfl
      exact ih hp' hI' (by omega)

end Ends

/-! ## Readers -/

section Follows

variable {tape} {α β : Type} {n : Nat}

variable (tape) in
/-- From every place that has fewer than `n` tokens before it, what is read by position is what a reader reads. -/
def Follows (n : Nat) (x : Walk α) (r : Reader α) : Prop :=
  ∀ p, p ≤ tape.size → tape.size - p < n →
    tape.Ends (r (tape.cursor p)) x p fun a p' => p ≤ p' ∧ r (tape.cursor p) = .ok (a, tape.cursor p')

variable {x : Walk α} {r : Reader α} {f : α → Walk β} {g : α → Reader β}

theorem follows_pure (a : α) : tape.Follows n (pure a) (pure a) :=
  fun p _ _ => ends_pure ⟨Nat.le_refl p, rfl⟩

theorem follows_fail (cause : SyntaxCause) (line : Nat) :
    tape.Follows n (Walk.fail cause line : Walk α) (Reader.fail cause line) :=
  fun _ _ _ => ends_fail rfl

theorem Follows.bind (hx : tape.Follows n x r) (hf : ∀ a, tape.Follows n (f a) (g a)) :
    tape.Follows n (x >>= f) (r >>= g) := by
  intro p hp hn
  refine ((hx p hp hn).imp (fun _ => Reader.bind_of_error) fun _ _ => id).bind ?_
  rintro a p' hp' ⟨hle, hok⟩
  rw [Reader.bind_of_ok hok]
  exact (hf a p' hp' (by omega)).mono fun b p'' h => ⟨Nat.le_trans hle h.1, h.2⟩

/-- What is made of a result by position may be left out of the reader. -/
theorem Follows.ends_map {k : α → β} {y : Walk β} {p : Nat} (hy : tape.Follows n y (r >>= fun a => pure (k a)))
    (hp : p ≤ tape.size) (hn : tape.size - p < n) :
    tape.Ends (r (tape.cursor p)) y p fun b p' =>
      p ≤ p' ∧ ∃ a, r (tape.cursor p) = .ok (a, tape.cursor p') ∧ b = k a := by
  have hread := hy p hp hn
  cases hr : r (tape.cursor p) with
  | error e =>
    rw [Reader.bind_of_error hr] at hread
    refine hread.imp ?_ ?_
    · rintro _ ⟨⟩
      rfl
    · rintro b p' ⟨-, ⟨⟩⟩
  | ok ac =>
    obtain ⟨a, c⟩ := ac
    rw [Reader.bind_of_ok hr] at hread
    refine hread.imp ?_ ?_
    · rintro _ ⟨⟩
    · rintro b p' ⟨hle, h⟩
      cases h
      exact ⟨hle, a, rfl, rfl⟩

/-- A reader that reads a token goes on. -/
theorem lt_of_reads {a : α} {p p' : Nat} (hr : Reader.Reads 1 r) (h : r (tape.cursor p) = .ok (a, tape.cursor p')) :
    p < p' := by
  have hlength := hr _ _ _ h
  simp only [cursor, List.length_drop] at hlength
  omega

theorem follows_skips {kind : TokenKind} (hkind : kind ≠ .endMark) :
    tape.Follows n (Walk.skips tape.row kind) (Reader.skips kind) := by
  intro p hp _
  refine (ends_skips hkind hp).mono ?_
  unfold Reader.skips
  rw [cursor_skip? hkind hp]
  rintro b p' (⟨rfl, hskip, -, rfl⟩ | ⟨rfl, hskip, rfl⟩)
  · rw [if_pos hskip]
    exact ⟨Nat.le_succ p, rfl⟩
  · rw [if_neg hskip]
    exact ⟨Nat.le_refl _, rfl⟩

theorem follows_expect (place : Place) : tape.Follows n (Walk.expect tape.row place) (Reader.expect place) := by
  intro p hp _
  refine (ends_expect hp fun _ => id).mono ?_
  rintro t p' ⟨rfl, hkind, hlt, rfl⟩
  refine ⟨Nat.le_succ p, ?_⟩
  unfold Reader.expect
  rw [cursor_eq hlt]
  exact if_pos hkind

end Follows

end Tape

end SsaCompiler.Lang
