import SsaCompiler.Proofs.Text.Spans

/-!
# Words and marks

A listed text is made of words with marks between them.  Cutting it at the marks gives the words back, so that
what is put together from words is told by its text:

    pieces (cs ++ c :: rest) = pieces cs ++ .mark c :: pieces rest        for a mark c     (pieces_append_mark)
    pieces cs = pieces cs' → cs = cs'                                                      (pieces_inj)
-/

namespace SsaCompiler.Text

/-- The characters that no word has. -/
def marks : List Char :=
  [' ', '\n', ',', ':', ';', '(', ')', '=']

def isMark (c : Char) : Bool :=
  marks.contains c

/-- A character with something that no mark has is no mark. -/
theorem isMark_eq_false {P : Char → Prop} (hP : ∀ m ∈ marks, ¬ P m) {c : Char} (hc : P c) : isMark c = false :=
  Bool.eq_false_iff.mpr fun hmark => hP c (List.contains_iff_mem.mp hmark) hc

/-- A longest part of a text without marks, or a mark. -/
inductive Piece where
  | span (cs : List Char)
  | mark (c : Char)

def Piece.chars : Piece → List Char
  | .span cs => cs
  | .mark c => [c]

/-- A piece that is a word. -/
def word (s : String) : Piece :=
  .span s.toList

@[simp] theorem word_inj {s t : String} : word s = word t ↔ s = t := by
  simp [word, String.toList_inj]

@[simp] theorem word_ne_mark (s : String) (c : Char) : word s ≠ .mark c := nofun

@[simp] theorem mark_ne_word (s : String) (c : Char) : .mark c ≠ word s := nofun

/-- A text cut at its marks. -/
def pieces : List Char → List Piece
  | [] => []
  | c :: cs =>
    if isMark c then .mark c :: pieces cs
    else
      match pieces cs with
      | .span span :: ps => .span (c :: span) :: ps
      | ps => .span [c] :: ps

theorem pieces_cons_mark {c : Char} (hc : isMark c = true) (cs : List Char) :
    pieces (c :: cs) = .mark c :: pieces cs := by
  rw [pieces, if_pos hc]

theorem pieces_append_mark {c : Char} (hc : isMark c = true) (cs rest : List Char) :
    pieces (cs ++ c :: rest) = pieces cs ++ .mark c :: pieces rest := by
  induction cs with
  | nil => exact pieces_cons_mark hc rest
  | cons d cs ih =>
    rw [List.cons_append, pieces, pieces, ih]
    split
    · rfl
    · match pieces cs with
      | [] => rfl
      | .span _ :: _ => rfl
      | .mark _ :: _ => rfl

/-- The pieces together are the text. -/
theorem flatMap_chars_pieces (cs : List Char) : (pieces cs).flatMap Piece.chars = cs := by
  induction cs with
  | nil => rfl
  | cons c cs ih =>
    rw [pieces]
    split
    · rw [List.flatMap_cons, ih]
      rfl
    · split
      · next span ps heq =>
        rw [heq, List.flatMap_cons] at ih
        rw [List.flatMap_cons, ← ih]
        rfl
      · rw [List.flatMap_cons, ih]
        rfl

theorem pieces_inj {cs cs' : List Char} (h : pieces cs = pieces cs') : cs = cs' := by
  rw [← flatMap_chars_pieces cs, h, flatMap_chars_pieces]

/-- A mark among the pieces of a text is a character of it. -/
theorem mem_of_mark_mem_pieces {c : Char} {cs : List Char} (h : .mark c ∈ pieces cs) : c ∈ cs := by
  rw [← flatMap_chars_pieces cs]
  exact List.mem_flatMap.mpr ⟨_, h, List.mem_singleton.mpr rfl⟩

/-- What follows a mark does not change the pieces before it. -/
theorem pieces_append_of_mark {c : Char} (hc : isMark c = true) {cs : List Char} {ps : List Piece}
    (h : pieces cs = ps ++ [.mark c]) (rest : List Char) : pieces (cs ++ rest) = ps ++ .mark c :: pieces rest := by
  have hcs : cs = ps.flatMap Piece.chars ++ [c] := by
    rw [← flatMap_chars_pieces cs, h, List.flatMap_append]
    rfl
  have hps : pieces (ps.flatMap Piece.chars) = ps := by
    rw [hcs, pieces_append_mark hc] at h
    exact List.append_cancel_right h
  rw [hcs, List.append_assoc, List.singleton_append, pieces_append_mark hc, hps]

/-! ## Words -/

/-- A text that is one piece. -/
structure IsWord (s : String) : Prop where
  ne_nil : s.toList ≠ []
  plain : ∀ c ∈ s.toList, isMark c = false

instance (s : String) : Decidable (IsWord s) :=
  decidable_of_iff (s.toList ≠ [] ∧ s.toList.any isMark = false)
    ⟨fun ⟨h, h'⟩ => ⟨h, by simpa using h'⟩, fun ⟨h, h'⟩ => ⟨h, by simpa using h'⟩⟩

theorem IsWord.append {s t : String} (h : IsWord s) (ht : ∀ c ∈ t.toList, isMark c = false) : IsWord (s ++ t) := by
  refine ⟨?_, ?_⟩
  · rw [String.toList_append]
    exact fun hnil => h.ne_nil (List.append_eq_nil_iff.mp hnil).1
  · rw [String.toList_append]
    exact List.forall_mem_append.mpr ⟨h.plain, ht⟩

theorem pieces_of_plain {cs : List Char} (hne : cs ≠ []) (h : ∀ c ∈ cs, isMark c = false) : pieces cs = [.span cs] := by
  induction cs with
  | nil => exact absurd rfl hne
  | cons c cs ih =>
    rw [pieces, if_neg (by rw [h c List.mem_cons_self]; exact Bool.false_ne_true)]
    cases cs with
    | nil => rfl
    | cons d cs => rw [ih (List.cons_ne_nil _ _) fun e he => h e (List.mem_cons_of_mem c he)]

theorem IsWord.pieces (h : IsWord s) : pieces s.toList = [word s] :=
  pieces_of_plain h.ne_nil h.plain

/-! ## Rows with commas -/

/-- Rows of pieces with a comma and a space between them. -/
def commaPieces : List (List Piece) → List Piece
  | [] => []
  | ps :: rows => ps ++ rows.flatMap fun qs => .mark ',' :: .mark ' ' :: qs

/-- What is made of rows has the marks of the rows, commas and spaces. -/
theorem mark_not_mem_commaPieces {rows : List (List Piece)} {c : Char} (hcomma : c ≠ ',') (hspace : c ≠ ' ')
    (h : ∀ ps ∈ rows, .mark c ∉ ps) : .mark c ∉ commaPieces rows := by
  cases rows with
  | nil => exact List.not_mem_nil
  | cons ps rows =>
    obtain ⟨hps, hrows⟩ := List.forall_mem_cons.mp h
    simp only [commaPieces, List.mem_append, List.mem_flatMap, List.mem_cons, Piece.mark.injEq, not_or, not_exists, not_and]
    exact ⟨hps, fun qs hqs => ⟨hcomma, hspace, hrows qs hqs⟩⟩

theorem pieces_commaSeparated (texts : List String) :
    pieces (", ".intercalate texts).toList = commaPieces (texts.map fun t => pieces t.toList) := by
  rw [String.toList_intercalate]
  match texts with
  | [] => rfl
  | t :: texts =>
    show pieces ([',', ' '].intercalate (t.toList :: texts.map String.toList)) = _
    rw [List.map_cons, commaPieces]
    induction texts generalizing t with
    | nil => simp [List.intercalate]
    | cons u texts ih =>
      have hcomma (rest : List Char) : pieces (t.toList ++ [',', ' '] ++ rest) =
          pieces t.toList ++ .mark ',' :: .mark ' ' :: pieces rest := by
        rw [List.append_assoc]
        exact pieces_append_mark rfl _ _
      rw [List.map_cons, List.intercalate_cons_cons, hcomma, ih, List.map_cons, List.flatMap_cons]
      rfl

theorem commaPieces_cons_cons (ps qs : List Piece) (rows : List (List Piece)) :
    commaPieces (ps :: qs :: rows) = ps ++ .mark ',' :: .mark ' ' :: commaPieces (qs :: rows) := by
  simp [commaPieces]

/-- Rows without commas are told by what they make together. -/
theorem commaPieces_inj {rows rows' : List (List Piece)} (hne : [] ∉ rows) (hne' : [] ∉ rows')
    (h : ∀ ps ∈ rows, .mark ',' ∉ ps) (h' : ∀ ps ∈ rows', .mark ',' ∉ ps) (heq : commaPieces rows = commaPieces rows') :
    rows = rows' := by
  have hempty {ps : List Piece} {rows : List (List Piece)} (hne : [] ∉ ps :: rows) : commaPieces (ps :: rows) ≠ [] := by
    intro hnil
    rw [(List.append_eq_nil_iff.mp hnil).1] at hne
    exact hne List.mem_cons_self
  -- a row that is the last holds no comma, so it is not also followed by another
  have hone (ps : List Piece) : commaPieces [ps] = ps := List.append_nil ps
  have hlast {ps ps' qs : List Piece} {rows : List (List Piece)} (hps : .mark ',' ∉ ps) :
      commaPieces [ps] ≠ commaPieces (ps' :: qs :: rows) := by
    rw [hone]
    rintro rfl
    rw [commaPieces_cons_cons] at hps
    exact hps (List.mem_append_right _ List.mem_cons_self)
  match rows, rows' with
  | [], [] => rfl
  | [], _ :: _ => exact absurd heq.symm (hempty hne')
  | _ :: _, [] => exact absurd heq (hempty hne)
  | [ps], [ps'] => rw [← hone ps, heq, hone]
  | [ps], _ :: _ :: _ => exact absurd heq (hlast (h ps List.mem_cons_self))
  | _ :: _ :: _, [ps'] => exact absurd heq.symm (hlast (h' ps' List.mem_cons_self))
  | ps :: qs :: rows, ps' :: qs' :: rows' =>
    rw [commaPieces_cons_cons, commaPieces_cons_cons] at heq
    obtain ⟨rfl, hrest⟩ := append_cons_inj (h ps List.mem_cons_self) (h' ps' List.mem_cons_self) heq
    rw [commaPieces_inj (fun hmem => hne (List.mem_cons_of_mem _ hmem)) (fun hmem => hne' (List.mem_cons_of_mem _ hmem))
      (List.forall_mem_cons.mp h).2 (List.forall_mem_cons.mp h').2 (List.cons.inj hrest).2]

/-! ## Lines -/

/-- Rows without a newline, each with one after it, are told by what they make together. -/
theorem lines_inj {rows rows' : List (List Piece)} (h : ∀ ps ∈ rows, .mark '\n' ∉ ps)
    (h' : ∀ ps ∈ rows', .mark '\n' ∉ ps)
    (heq : (rows.flatMap fun ps => ps ++ [.mark '\n']) = rows'.flatMap fun ps => ps ++ [.mark '\n']) : rows = rows' := by
  induction rows generalizing rows' with
  | nil =>
    cases rows' with
    | nil => rfl
    | cons ps' rows' => simp at heq
  | cons ps rows ih =>
    cases rows' with
    | nil => simp at heq
    | cons ps' rows' =>
      simp only [List.flatMap_cons, List.append_assoc, List.singleton_append] at heq
      obtain ⟨rfl, hrest⟩ := append_cons_inj (h ps List.mem_cons_self) (h' ps' List.mem_cons_self) heq
      rw [ih (List.forall_mem_cons.mp h).2 (List.forall_mem_cons.mp h').2 hrest]

end SsaCompiler.Text
