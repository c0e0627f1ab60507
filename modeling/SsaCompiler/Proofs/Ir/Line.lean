import SsaCompiler.Ir.Listing
import SsaCompiler.Proofs.Numeral.FloatText
import SsaCompiler.Proofs.Text.Pieces
import SsaCompiler.Proofs.Text.Quoting

/-!
# Lines of listings

What a line of a listing says, apart from the tables it is said from: ids outside a function are given by what
they name, and values with the names they have.  The text of a line tells what it says:

    pieces l.text.toList = l.pieces ++ [.mark '\n']                                        (Line.pieces_text)
    l.pieces = l'.pieces → l = l'                                                          (Line.pieces_inj)
    String.join (ls.map text) = String.join (ls'.map text) → ls = ls'                      (Line.join_inj)

where names are words and numbers are numbers (`Line.IsWritten`).
-/

namespace SsaCompiler.Ir

open Numeral (IntWidth FloatWidth InNumeral)
open Text (Piece word word_inj IsWord isMark pieces_append_mark pieces_cons_mark commaPieces commaPieces_inj)

/-! ## Words -/

theorem isMark_of_inNumeral {c : Char} (h : InNumeral c) : isMark c = false :=
  Text.isMark_eq_false (by simp [Text.marks, InNumeral]) h

theorem plain_repr (n : Nat) : ∀ c ∈ n.repr.toList, isMark c = false :=
  fun c hc => isMark_of_inNumeral (Numeral.inNumeral_repr n c hc)

theorem isWord_toString (n : Int) : IsWord (toString n) := by
  refine ⟨?_, fun c hc => isMark_of_inNumeral (Numeral.inNumeral_toString n c hc)⟩
  rw [Int.toString_eq_repr, Int.repr_eq_if]
  split
  · rw [Nat.repr_eq_ofList_toDigits, String.toList_ofList]
    exact Nat.toDigits_ne_nil
  · rw [String.toList_append]
    exact List.cons_ne_nil _ _

theorem isWord_float {width : FloatWidth} {bits : Nat} (h : width.IsNumber bits) : IsWord (width.text bits) :=
  ⟨h.text_ne_nil, fun c hc => isMark_of_inNumeral (Numeral.inNumeral_text width bits c hc)⟩

theorem isWord_id {e : Entity} (i : Id e) : IsWord i.text := by
  have hmark : IsWord e.mark := by cases e <;> decide
  exact hmark.append (plain_repr i.index)

theorem Id.text_inj {e : Entity} {i j : Id e} (h : i.text = j.text) : i = j := by
  have hread := Numeral.readNat?_repr i.index
  rw [show i.index.repr = j.index.repr from (String.append_right_inj e.mark).mp h, Numeral.readNat?_repr] at hread
  cases i
  cases j
  cases hread
  rfl

theorem isWord_ty (ty : Ty) : IsWord ty.text := by
  rcases ty with width | width | _ | _ <;> try cases width
  all_goals decide

theorem Ty.ofText?_text (ty : Ty) : Ty.ofText? ty.text = some ty := by
  rcases ty with width | width | _ | _ <;> try cases width
  all_goals rfl

theorem Ty.text_inj {ty ty' : Ty} (h : ty.text = ty'.text) : ty = ty' := by
  have hread := ty.ofText?_text
  rw [h, ty'.ofText?_text] at hread
  exact (Option.some.inj hread).symm

theorem Opcode.ofText?_text (op : Opcode) : Opcode.ofText? op.text = some op := by
  cases op <;> rfl

theorem Opcode.text_inj {op op' : Opcode} (h : op.text = op'.text) : op = op' := by
  have hread := op.ofText?_text
  rw [h, op'.ofText?_text] at hread
  exact (Option.some.inj hread).symm

theorem Linkage.text_inj : ∀ {a b : Linkage}, a.text = b.text → a = b := by
  rintro (_ | _ | _) (_ | _ | _) h
  all_goals first | rfl | exact absurd h (by decide)

theorem isWord_linkage (linkage : Linkage) : IsWord linkage.text := by
  cases linkage <;> decide

/-! ## Operations -/

/-- A value as it is listed. -/
structure Shown where
  name : Option String
  value : ValueId

namespace Shown

def text (v : Shown) : String :=
  match v.name with
  | some name => name ++ "(" ++ v.value.text ++ ")"
  | none => v.value.text

def pieces (v : Shown) : List Piece :=
  match v.name with
  | some name => [word name, .mark '(', word v.value.text, .mark ')']
  | none => [word v.value.text]

/-- Whether the name, if there is one, is a word. -/
def IsWritten (v : Shown) : Prop :=
  ∀ name ∈ v.name, IsWord name

theorem pieces_text {v : Shown} (h : v.IsWritten) : Text.pieces v.text.toList = v.pieces := by
  obtain ⟨_ | name, v⟩ := v
  · exact (isWord_id v).pieces
  · show Text.pieces (name ++ "(" ++ v.text ++ ")").toList = [word name, .mark '(', word v.text, .mark ')']
    simp only [String.toList_append, List.append_assoc]
    show Text.pieces (name.toList ++ '(' :: (v.text.toList ++ ')' :: [])) = _
    rw [pieces_append_mark rfl, (h name rfl).pieces, pieces_append_mark rfl, (isWord_id v).pieces]
    rfl

theorem pieces_inj {v w : Shown} (h : v.pieces = w.pieces) : v = w := by
  obtain ⟨_ | name, v⟩ := v <;> obtain ⟨_ | name', w⟩ := w <;>
    simp only [pieces, List.cons.injEq, reduceCtorEq, and_true, and_false, word_inj, true_and] at h
  · rw [Id.text_inj h]
  · rw [h.1, Id.text_inj h.2]

theorem pieces_ne_nil (v : Shown) : v.pieces ≠ [] := by
  obtain ⟨_ | name, v⟩ := v <;> exact List.cons_ne_nil _ _

/-- The marks of a value are parentheses. -/
theorem mark_not_mem_pieces (v : Shown) {c : Char} (h : c ≠ '(') (h' : c ≠ ')') : .mark c ∉ v.pieces := by
  obtain ⟨_ | name, v⟩ := v <;> simp [pieces, h, h']

/-- Values with commas between them. -/
theorem commaPieces_inj {vs ws : List Shown} (h : commaPieces (vs.map pieces) = commaPieces (ws.map pieces)) :
    vs = ws := by
  have hne (vs : List Shown) : [] ∉ vs.map pieces := by
    simp [pieces_ne_nil]
  have hcomma (vs : List Shown) : ∀ ps ∈ vs.map pieces, .mark ',' ∉ ps := by
    simp [mark_not_mem_pieces]
  have hpieces := Text.commaPieces_inj (hne vs) (hne ws) (hcomma vs) (hcomma ws) h
  exact List.map_injective_iff.mpr (fun _ _ => pieces_inj) hpieces

end Shown

/-- An instruction as it is listed, but for its result. -/
inductive Operation where
  | unary (op : Opcode) (ty : Ty) (arg : Shown)
  | binary (op : Opcode) (lhs rhs : Shown)
  | iconst (ty : Ty) (number : Int)
  | fconst (width : FloatWidth) (bits : Nat)
  | stackLoad (ty : Ty) (slot : SlotId)
  | stackStore (value : Shown) (slot : SlotId)
  | globalLoad (name : String)
  | dataAddr (name : String)
  | call (callee : String) (args : List Shown)
  | ret (value : Option Shown)

/-- Whether an operation does arithmetic on two values. -/
def Opcode.isArithmetic : Opcode → Bool
  | .iadd | .isub | .imul | .idivS | .iremS => true
  | op => op.isFloatArithmetic

theorem Opcode.not_isArithmetic_of_isConversion {op : Opcode} (h : op.isConversion = true) :
    ¬ op.isArithmetic = true := by
  revert h
  cases op <;> decide

/-- The operation with the type that it names. -/
def mnemonic (op : Opcode) (ty : Option Ty) : String :=
  match ty with
  | some ty => op.text ++ "." ++ ty.text
  | none => op.text

namespace Operation

def text : Operation → String
  | unary op ty arg => mnemonic op (some ty) ++ " " ++ arg.text
  | binary op lhs rhs => mnemonic op none ++ " " ++ commaSeparated [lhs.text, rhs.text]
  | iconst ty number => mnemonic .iconst (some ty) ++ " " ++ toString number
  | fconst width bits => mnemonic .fconst (some (.float width)) ++ " " ++ width.text bits
  | stackLoad ty slot => mnemonic .stackLoad (some ty) ++ " " ++ slot.text
  | stackStore value slot => mnemonic .stackStore none ++ " " ++ commaSeparated [value.text, slot.text]
  | globalLoad name => mnemonic .globalLoad none ++ " " ++ name
  | dataAddr name => mnemonic .dataAddr none ++ " " ++ name
  | call callee args => mnemonic .call none ++ " " ++ callee ++ "(" ++ commaSeparated (args.map Shown.text) ++ ")"
  | ret (some value) => mnemonic .ret none ++ " " ++ value.text
  | ret none => mnemonic .ret none

/-- The operation and the type that are named first. -/
def head : Operation → Opcode × Option Ty
  | unary op ty _ => (op, some ty)
  | binary op _ _ => (op, none)
  | iconst ty _ => (.iconst, some ty)
  | fconst width _ => (.fconst, some (.float width))
  | stackLoad ty _ => (.stackLoad, some ty)
  | stackStore _ _ => (.stackStore, none)
  | globalLoad _ => (.globalLoad, none)
  | dataAddr _ => (.dataAddr, none)
  | call _ _ => (.call, none)
  | ret _ => (.ret, none)

/-- What follows the first word. -/
def operands : Operation → List Piece
  | unary _ _ arg => .mark ' ' :: arg.pieces
  | binary _ lhs rhs => .mark ' ' :: commaPieces [lhs.pieces, rhs.pieces]
  | iconst _ number => [.mark ' ', word (toString number)]
  | fconst width bits => [.mark ' ', word (width.text bits)]
  | stackLoad _ slot => [.mark ' ', word slot.text]
  | stackStore value slot => .mark ' ' :: commaPieces [value.pieces, [word slot.text]]
  | globalLoad name => [.mark ' ', word name]
  | dataAddr name => [.mark ' ', word name]
  | call callee args => .mark ' ' :: word callee :: .mark '(' :: (commaPieces (args.map Shown.pieces) ++ [.mark ')'])
  | ret (some value) => .mark ' ' :: value.pieces
  | ret none => []

def pieces (o : Operation) : List Piece :=
  word (mnemonic o.head.1 o.head.2) :: o.operands

/-- Whether an operation is of its kind, its names are words and its number is one. -/
def IsWritten : Operation → Prop
  | unary op _ arg => op.isConversion = true ∧ arg.IsWritten
  | binary op lhs rhs => op.isArithmetic = true ∧ lhs.IsWritten ∧ rhs.IsWritten
  | fconst width bits => width.IsNumber bits
  | stackStore value _ => value.IsWritten
  | globalLoad name => IsWord name
  | dataAddr name => IsWord name
  | call callee args => IsWord callee ∧ ∀ v ∈ args, v.IsWritten
  | ret value => ∀ v ∈ value, v.IsWritten
  | _ => True

end Operation

theorem isWord_mnemonic (op : Opcode) (ty : Option Ty) : IsWord (mnemonic op ty) := by
  have hop : IsWord op.text := by cases op <;> decide
  cases ty with
  | none => exact hop
  | some ty => exact (hop.append (by simp [isMark, Text.marks])).append (isWord_ty ty).plain

theorem mnemonic_inj {op op' : Opcode} {ty ty' : Option Ty} (h : mnemonic op ty = mnemonic op' ty') :
    op = op' ∧ ty = ty' := by
  have hpoint (op : Opcode) : '.' ∉ op.text.toList := by cases op <;> decide
  have hsplit (op : Opcode) (ty : Ty) : (mnemonic op (some ty)).toList = op.text.toList ++ '.' :: ty.text.toList := by
    simp [mnemonic]
  have hchars := congrArg String.toList h
  cases ty with
  | none =>
    cases ty' with
    | none => exact ⟨Opcode.text_inj h, rfl⟩
    | some ty' =>
      rw [hsplit] at hchars
      exact absurd (hchars ▸ List.mem_append_right _ List.mem_cons_self) (hpoint op)
  | some ty =>
    cases ty' with
    | none =>
      rw [hsplit] at hchars
      exact absurd (hchars ▸ List.mem_append_right _ List.mem_cons_self) (hpoint op')
    | some ty' =>
      rw [hsplit, hsplit] at hchars
      obtain ⟨hop, hty⟩ := Text.append_cons_inj (hpoint op) (hpoint op') hchars
      exact ⟨Opcode.text_inj (String.toList_inj.mp hop), congrArg some (Ty.text_inj (String.toList_inj.mp hty))⟩

namespace Operation

/-- A first word and what follows it after a space. -/
theorem pieces_mnemonic (op : Opcode) (ty : Option Ty) (rest : String) :
    Text.pieces (mnemonic op ty ++ " " ++ rest).toList =
      word (mnemonic op ty) :: .mark ' ' :: Text.pieces rest.toList := by
  simp only [String.toList_append, List.append_assoc]
  show Text.pieces ((mnemonic op ty).toList ++ ' ' :: rest.toList) = _
  rw [pieces_append_mark rfl, (isWord_mnemonic op ty).pieces]
  rfl

theorem pieces_text {o : Operation} (h : o.IsWritten) : Text.pieces o.text.toList = o.pieces := by
  cases o with
  | unary op ty arg => rw [text, pieces_mnemonic, Shown.pieces_text h.2]; rfl
  | binary op lhs rhs =>
    rw [text, pieces_mnemonic, commaSeparated, Text.pieces_commaSeparated]
    simp only [List.map_cons, List.map_nil, Shown.pieces_text h.2.1, Shown.pieces_text h.2.2]
    rfl
  | iconst ty number => rw [text, pieces_mnemonic, (isWord_toString number).pieces]; rfl
  | fconst width bits => rw [text, pieces_mnemonic, (isWord_float h).pieces]; rfl
  | stackLoad ty slot => rw [text, pieces_mnemonic, (isWord_id slot).pieces]; rfl
  | stackStore value slot =>
    rw [text, pieces_mnemonic, commaSeparated, Text.pieces_commaSeparated]
    simp only [List.map_cons, List.map_nil, Shown.pieces_text h, (isWord_id slot).pieces]
    rfl
  | globalLoad name => rw [text, pieces_mnemonic, IsWord.pieces h]; rfl
  | dataAddr name => rw [text, pieces_mnemonic, IsWord.pieces h]; rfl
  | call callee args =>
    have hargs : (args.map Shown.text).map (fun t => Text.pieces t.toList) = args.map Shown.pieces := by
      rw [List.map_map]
      exact List.map_congr_left fun v hv => Shown.pieces_text (h.2 v hv)
    have htext : text (call callee args) =
        mnemonic .call none ++ " " ++ (callee ++ "(" ++ commaSeparated (args.map Shown.text) ++ ")") := by
      simp only [text, String.append_assoc]
    rw [htext, pieces_mnemonic]
    simp only [String.toList_append, List.append_assoc]
    show _ :: _ :: Text.pieces (callee.toList ++ '(' :: ((commaSeparated _).toList ++ ')' :: [])) = _
    rw [pieces_append_mark rfl, h.1.pieces, pieces_append_mark rfl, commaSeparated, Text.pieces_commaSeparated, hargs]
    rfl
  | ret value =>
    cases value with
    | none => exact (isWord_mnemonic .ret none).pieces
    | some value => rw [text, pieces_mnemonic, Shown.pieces_text (h value rfl)]; rfl

/-- The marks of an operation. -/
theorem mark_not_mem_pieces (o : Operation) {c : Char} (h : c ∉ [' ', ',', '(', ')']) : .mark c ∉ o.pieces := by
  obtain ⟨hspace, hcomma, hopen, hclose⟩ : c ≠ ' ' ∧ c ≠ ',' ∧ c ≠ '(' ∧ c ≠ ')' := by simpa using h
  have hvalue (v : Shown) : .mark c ∉ v.pieces := v.mark_not_mem_pieces hopen hclose
  have hrows (rows : List (List Piece)) (h : ∀ ps ∈ rows, .mark c ∉ ps) : .mark c ∉ commaPieces rows :=
    Text.mark_not_mem_commaPieces hcomma hspace h
  cases o with
  | binary op lhs rhs =>
    have := hrows [lhs.pieces, rhs.pieces] (by simp [hvalue])
    simp [pieces, operands, this, hspace]
  | stackStore value slot =>
    have := hrows [value.pieces, [word slot.text]] (by simp [hvalue])
    simp [pieces, operands, this, hspace]
  | call callee args =>
    have := hrows (args.map Shown.pieces) (by simp [hvalue])
    simp [pieces, operands, this, hspace, hopen, hclose]
  | ret value => cases value <;> simp [pieces, operands, hvalue, hspace]
  | _ => simp [pieces, operands, hvalue, hspace]

/-- What follows the first word, if anything does, is a space and another word. -/
theorem operands_cases (o : Operation) : o.operands = [] ∨ ∃ w ps, o.operands = .mark ' ' :: word w :: ps := by
  have hvalue (v : Shown) : ∃ w ps, v.pieces = word w :: ps := by
    obtain ⟨_ | name, v⟩ := v <;> exact ⟨_, _, rfl⟩
  cases o with
  | unary op ty arg =>
    obtain ⟨w, ps, harg⟩ := hvalue arg
    exact .inr ⟨w, ps, by rw [operands, harg]⟩
  | binary op lhs rhs =>
    obtain ⟨w, ps, hlhs⟩ := hvalue lhs
    exact .inr ⟨w, _, by rw [operands, hlhs]; rfl⟩
  | stackStore value slot =>
    obtain ⟨w, ps, hstored⟩ := hvalue value
    exact .inr ⟨w, _, by rw [operands, hstored]; rfl⟩
  | ret value =>
    cases value with
    | none => exact .inl rfl
    | some value =>
      obtain ⟨w, ps, hreturned⟩ := hvalue value
      exact .inr ⟨w, ps, by rw [operands, hreturned]⟩
  | _ => exact .inr ⟨_, _, rfl⟩

/-- The operation that is named tells what follows it. -/
theorem ctorIdx_eq {o o' : Operation} (h : o.IsWritten) (h' : o'.IsWritten) (hop : o.head.1 = o'.head.1) :
    o.ctorIdx = o'.ctorIdx := by
  cases o <;> cases o' <;> try rfl
  all_goals simp only [head, IsWritten] at hop h h'
  all_goals try contradiction
  all_goals subst hop
  case unary.binary => exact absurd h'.1 (Opcode.not_isArithmetic_of_isConversion h.1)
  case binary.unary => exact absurd h.1 (Opcode.not_isArithmetic_of_isConversion h'.1)
  -- what is left are conversions and arithmetic against operations of one kind
  all_goals
    first
    | exact absurd h.1 Bool.false_ne_true
    | exact absurd h'.1 Bool.false_ne_true

theorem pieces_inj {o o' : Operation} (h : o.IsWritten) (h' : o'.IsWritten) (heq : o.pieces = o'.pieces) : o = o' := by
  obtain ⟨hhead, hoperands⟩ := List.cons.inj heq
  obtain ⟨hop, hty⟩ := mnemonic_inj (word_inj.mp hhead)
  have hkind := ctorIdx_eq h h' hop
  cases o <;> cases o'
  case unary.unary op ty arg op' ty' arg' =>
    cases hop
    cases hty
    rw [Shown.pieces_inj (List.cons.inj hoperands).2]
  case binary.binary op lhs rhs op' lhs' rhs' =>
    cases hop
    have hsame : [lhs, rhs] = [lhs', rhs'] := Shown.commaPieces_inj (List.cons.inj hoperands).2
    cases hsame
    rfl
  case iconst.iconst ty number ty' number' =>
    cases hty
    have hread := Numeral.readInt?_toString number
    rw [word_inj.mp (List.cons.inj (List.cons.inj hoperands).2).1, Numeral.readInt?_toString] at hread
    cases hread
    rfl
  case fconst.fconst width bits width' bits' =>
    cases hty
    rw [FloatWidth.text_inj h h' (word_inj.mp (List.cons.inj (List.cons.inj hoperands).2).1)]
  case stackLoad.stackLoad ty slot ty' slot' =>
    cases hty
    rw [Id.text_inj (word_inj.mp (List.cons.inj (List.cons.inj hoperands).2).1)]
  case stackStore.stackStore value slot value' slot' =>
    have hrows := commaPieces_inj (by simp [value.pieces_ne_nil.symm]) (by simp [value'.pieces_ne_nil.symm])
      (by simp [value.mark_not_mem_pieces]) (by simp [value'.mark_not_mem_pieces]) (List.cons.inj hoperands).2
    obtain ⟨hvalue, hslot⟩ := List.cons.inj hrows
    rw [Shown.pieces_inj hvalue, Id.text_inj (word_inj.mp (List.cons.inj (List.cons.inj hslot).1).1)]
  case globalLoad.globalLoad name name' => rw [word_inj.mp (List.cons.inj (List.cons.inj hoperands).2).1]
  case dataAddr.dataAddr name name' => rw [word_inj.mp (List.cons.inj (List.cons.inj hoperands).2).1]
  case call.call callee args callee' args' =>
    obtain ⟨hcallee, hargs⟩ := List.cons.inj (List.cons.inj hoperands).2
    rw [word_inj.mp hcallee, Shown.commaPieces_inj (List.append_cancel_right (List.cons.inj hargs).2)]
  case ret.ret value value' =>
    match value, value' with
    | none, none => rfl
    | some value, some value' => rw [Shown.pieces_inj (List.cons.inj hoperands).2]
    | none, some _ => cases hoperands
    | some _, none => cases hoperands
  all_goals cases hkind

end Operation

/-! ## Constants and signatures -/

/-- Whether a floating-point constant is a number. -/
def Constant.IsWritten : Constant → Prop
  | .int .. => True
  | .float width bits => width.IsNumber bits.toNat

theorem Constant.isWord {c : Constant} (h : c.IsWritten) : IsWord c.text := by
  cases c with
  | int width bits => exact isWord_toString _
  | float width bits => exact isWord_float h

/-- The text of a constant tells it, its type being known. -/
theorem Constant.text_inj {c c' : Constant} (h : c.IsWritten) (h' : c'.IsWritten) (hty : c.ty = c'.ty)
    (heq : c.text = c'.text) : c = c' := by
  cases c with
  | int width bits =>
    cases c' with
    | int width' bits' =>
      cases hty
      have hread := Numeral.readInt?_toString bits.toInt
      rw [show toString bits.toInt = toString bits'.toInt from heq, Numeral.readInt?_toString] at hread
      rw [BitVec.eq_of_toInt_eq (Option.some.inj hread)]
    | float => cases hty
  | float width bits =>
    cases c' with
    | int => cases hty
    | float width' bits' =>
      cases hty
      rw [BitVec.eq_of_toNat_eq (FloatWidth.text_inj h h' heq)]

namespace Signature

/-- What stands between the parentheses. -/
def listed (s : Signature) : List String :=
  s.params.map Ty.text ++ if s.variadic then ["..."] else []

def pieces (s : Signature) : List Piece :=
  .mark '(' :: (commaPieces (s.listed.map fun t => [word t]) ++
    [.mark ')', .mark ' ', word "->", .mark ' ', word s.ret.text])

theorem pieces_text (s : Signature) : Text.pieces s.text.toList = s.pieces := by
  have hword : ∀ t ∈ s.listed, Text.pieces t.toList = [word t] := by
    intro t ht
    rcases List.mem_append.mp ht with ht | ht
    · obtain ⟨ty, -, rfl⟩ := List.mem_map.mp ht
      exact (isWord_ty ty).pieces
    · split at ht
      · rw [List.mem_singleton.mp ht]
        rfl
      · cases ht
  have htext : s.text.toList = '(' :: ((", ".intercalate s.listed).toList ++ ')' :: ' ' :: ("->".toList ++ ' ' ::
      s.ret.text.toList)) := by
    simp [text, listed]
  rw [htext, pieces_cons_mark rfl, pieces_append_mark rfl, Text.pieces_commaSeparated, List.map_congr_left hword,
    pieces_cons_mark rfl, pieces_append_mark rfl, (isWord_ty s.ret).pieces]
  rfl

/-- A name in front of a signature is a word. -/
theorem pieces_append (s : Signature) {name : String} (h : IsWord name) (rest : List Char) :
    Text.pieces (name.toList ++ (s.text.toList ++ rest)) = word name :: Text.pieces (s.text.toList ++ rest) := by
  have htext : s.text.toList = '(' :: ((", ".intercalate s.listed).toList ++ (") -> " ++ s.ret.text).toList) := by
    simp [text, listed]
  rw [htext, List.cons_append, pieces_append_mark rfl, pieces_cons_mark rfl, h.pieces]
  rfl

theorem listed_inj {s s' : Signature} (h : s.listed = s'.listed) : s.params = s'.params ∧ s.variadic = s'.variadic := by
  have hdots (tys : List Ty) : "..." ∉ tys.map Ty.text := by
    intro hmem
    obtain ⟨ty, -, hty⟩ := List.mem_map.mp hmem
    have hread := ty.ofText?_text
    rw [hty] at hread
    cases hread
  have hinj : Function.Injective Ty.text := fun _ _ => Ty.text_inj
  unfold listed at h
  cases hv : s.variadic <;> cases hv' : s'.variadic <;>
    simp only [hv, hv', if_true, Bool.false_eq_true, if_false, List.append_nil] at h
  · exact ⟨hinj.list_map h, rfl⟩
  · exact absurd (h ▸ List.mem_append_right _ List.mem_cons_self) (hdots s.params)
  · exact absurd (h ▸ List.mem_append_right _ List.mem_cons_self) (hdots s'.params)
  · exact ⟨hinj.list_map (List.append_cancel_right h), rfl⟩

theorem pieces_inj {s s' : Signature} {rest rest' : List Piece} (h : s.pieces ++ rest = s'.pieces ++ rest') :
    s = s' ∧ rest = rest' := by
  have hclose (s : Signature) : .mark ')' ∉ commaPieces (s.listed.map fun t => [word t]) :=
    Text.mark_not_mem_commaPieces (by decide) (by decide) (by simp)
  have hrow (s : Signature) : ∀ ps ∈ s.listed.map fun t => [word t], .mark ',' ∉ ps := by simp
  have hne (s : Signature) : [] ∉ s.listed.map fun t => [word t] := by simp
  simp only [pieces, List.cons_append, List.append_assoc, List.nil_append, List.cons.injEq, true_and] at h
  obtain ⟨hrows, htail⟩ := Text.append_cons_inj (hclose s) (hclose s') h
  have hlisted : s.listed = s'.listed :=
    List.map_injective_iff.mpr (fun _ _ heq => word_inj.mp (List.cons.inj heq).1)
      (commaPieces_inj (hne s) (hne s') (hrow s) (hrow s') hrows)
  obtain ⟨hparams, hvariadic⟩ := listed_inj hlisted
  simp only [List.cons.injEq, word_inj, true_and] at htail
  obtain ⟨params, ret, variadic, ⟨⟩⟩ := s
  obtain ⟨params', ret', variadic', ⟨⟩⟩ := s'
  cases hparams
  cases hvariadic
  cases Ty.text_inj htail.1
  exact ⟨rfl, htail.2⟩

theorem newline_not_mem_pieces (s : Signature) : .mark '\n' ∉ s.pieces := by
  have hrows : .mark '\n' ∉ commaPieces (s.listed.map fun t => [word t]) :=
    Text.mark_not_mem_commaPieces (by decide) (by decide) (by simp)
  simp [pieces, hrows]

end Signature

/-! ## Lines -/

inductive Line where
  | global (g : Global)
  | data (d : DataObject)
  | blank
  /-- The first line of a function; one with a body opens it. -/
  | head (linkage : Linkage) (name : String) (signature : Signature) (opens : Bool)
  | slot (slot : SlotId) (data : SlotData)
  | block (block : BlockId) (params : List (Shown × Ty))
  | inst (result : Option Shown) (operation : Operation)
  | close

/-- A value with its type. -/
def typedText : Shown × Ty → String
  | (v, ty) => v.text ++ ": " ++ ty.text

def typedPieces : Shown × Ty → List Piece
  | (v, ty) => v.pieces ++ [.mark ':', .mark ' ', word ty.text]

theorem typedPieces_text {p : Shown × Ty} (h : p.1.IsWritten) : Text.pieces (typedText p).toList = typedPieces p := by
  obtain ⟨v, ty⟩ := p
  simp only [typedText, String.toList_append, List.append_assoc]
  show Text.pieces (v.text.toList ++ ':' :: ' ' :: ty.text.toList) = _
  rw [pieces_append_mark rfl, pieces_cons_mark rfl, Shown.pieces_text h, (isWord_ty ty).pieces]
  rfl

theorem typedPieces_inj {p q : Shown × Ty} (h : typedPieces p = typedPieces q) : p = q := by
  have hcolon (v : Shown) : .mark ':' ∉ v.pieces := v.mark_not_mem_pieces (by decide) (by decide)
  obtain ⟨hv, hrest⟩ := Text.append_cons_inj (hcolon p.1) (hcolon q.1) h
  simp only [List.cons.injEq, word_inj, true_and, and_true] at hrest
  exact Prod.ext (Shown.pieces_inj hv) (Ty.text_inj hrest)

theorem mark_not_mem_typedPieces (p : Shown × Ty) {c : Char} (h : c ∉ [' ', ':', '(', ')']) :
    .mark c ∉ typedPieces p := by
  obtain ⟨hspace, hcolon, hopen, hclose⟩ : c ≠ ' ' ∧ c ≠ ':' ∧ c ≠ '(' ∧ c ≠ ')' := by simpa using h
  simp [typedPieces, p.1.mark_not_mem_pieces hopen hclose, hspace, hcolon]

namespace Line

def text : Line → String
  | global g => g.line
  | data d => d.line
  | blank => "\n"
  | head linkage name signature opens =>
    linkage.text ++ " function " ++ name ++ signature.text ++ if opens then " \x7b\n" else "\n"
  | slot i d => Function.slotLine (i, d)
  | block b params => b.text ++ "(" ++ commaSeparated (params.map typedText) ++ "):\n"
  | inst result operation => "  " ++ ((result.map fun v => v.text ++ " = ").getD "") ++ operation.text ++ "\n"
  | close => "\x7d\n"

/-- What a line holds before its end. -/
def pieces : Line → List Piece
  | global g =>
    [word "global", .mark ' ', word g.name, .mark ':', .mark ' ', word g.ty.text] ++
      ((g.init.map fun c => [.mark ' ', .mark '=', .mark ' ', word c.text]).getD [] ++
        [.mark ' ', .mark '(', word g.linkage.text, .mark ')'])
  | data d =>
    [word "data", .mark ' ', word d.name, .mark ' ', .mark '=', .mark ' '] ++ Text.pieces (Text.quoteBytes d.bytes).toList
  | blank => []
  | head linkage name signature opens =>
    [word linkage.text, .mark ' ', word "function", .mark ' ', word name] ++
      (signature.pieces ++ if opens then [.mark ' ', word "\x7b"] else [])
  | slot i d =>
    [.mark ' ', .mark ' ', word i.text, .mark ':', .mark ' ', word d.ty.text, .mark ' ', .mark ';', .mark ' ', word d.name]
  | block b params =>
    [word b.text, .mark '('] ++ (commaPieces (params.map typedPieces) ++ [.mark ')', .mark ':'])
  | inst result operation =>
    [.mark ' ', .mark ' '] ++
      ((result.map fun v => v.pieces ++ [.mark ' ', .mark '=', .mark ' ']).getD [] ++ operation.pieces)
  | close => [word "\x7d"]

/-- The part of a module that a line belongs to. -/
inductive Part where
  | table | gap | head | body
  deriving DecidableEq

def part : Line → Part
  | global _ | data _ => .table
  | blank => .gap
  | head .. => .head
  | slot .. | block .. | inst .. | close => .body

theorem eq_blank_of_part {l : Line} (h : l.part = .gap) : l = .blank := by
  cases l <;> first | rfl | cases h

def global? : Line → Option Global
  | global g => some g
  | _ => none

def data? : Line → Option DataObject
  | data d => some d
  | _ => none

def signature? : Line → Option Signature
  | head _ _ signature _ => some signature
  | _ => none

def isSlot : Line → Bool
  | slot .. => true
  | _ => false

/-- Whether the names of a line are words and its numbers are numbers. -/
def IsWritten : Line → Prop
  | global g => IsWord g.name ∧ ∀ c ∈ g.init, c.ty = g.ty ∧ c.IsWritten
  | data d => IsWord d.name
  | head _ name _ _ => IsWord name
  | slot _ d => IsWord d.name
  | block _ params => ∀ p ∈ params, p.1.IsWritten
  | inst result operation => (∀ v ∈ result, v.IsWritten) ∧ operation.IsWritten
  | blank | close => True

theorem pieces_text_global {g : Global} (h : (global g).IsWritten) :
    Text.pieces (global g).text.toList = (global g).pieces ++ [.mark '\n'] := by
  obtain ⟨name, ty, linkage, init⟩ := g
  have hname : Text.pieces name.toList = [word name] := h.1.pieces
  cases init with
  | none =>
    simp only [text, Global.line, Option.map_none, Option.getD_none, String.append_empty, String.toList_append,
      List.append_assoc]
    show Text.pieces ("global".toList ++ ' ' :: (name.toList ++ ':' :: ' ' :: (ty.text.toList ++ ' ' :: '(' ::
      (linkage.text.toList ++ ')' :: '\n' :: [])))) = _
    rw [pieces_append_mark rfl, pieces_append_mark rfl, pieces_cons_mark rfl, pieces_append_mark rfl,
      pieces_cons_mark rfl, pieces_append_mark rfl, hname, (isWord_ty ty).pieces, (isWord_linkage linkage).pieces]
    rfl
  | some c =>
    simp only [text, Global.line, Option.map_some, Option.getD_some, String.toList_append, List.append_assoc]
    show Text.pieces ("global".toList ++ ' ' :: (name.toList ++ ':' :: ' ' :: (ty.text.toList ++ ' ' :: '=' :: ' ' ::
      (c.text.toList ++ ' ' :: '(' :: (linkage.text.toList ++ ')' :: '\n' :: []))))) = _
    rw [pieces_append_mark rfl, pieces_append_mark rfl, pieces_cons_mark rfl, pieces_append_mark rfl,
      pieces_cons_mark rfl, pieces_cons_mark rfl, pieces_append_mark rfl, pieces_cons_mark rfl, pieces_append_mark rfl,
      hname, (isWord_ty ty).pieces, (Constant.isWord (h.2 c rfl).2).pieces, (isWord_linkage linkage).pieces]
    rfl

theorem pieces_text_head {linkage : Linkage} {name : String} (h : IsWord name) (signature : Signature) (opens : Bool) :
    Text.pieces (head linkage name signature opens).text.toList =
      (head linkage name signature opens).pieces ++ [.mark '\n'] := by
  have hhead {c : Char} (hc : isMark c = true) (rest : List Char) :
      Text.pieces (linkage.text.toList ++ ' ' :: ("function".toList ++ ' ' :: (name.toList ++ (signature.text.toList ++
        c :: rest)))) =
      word linkage.text :: .mark ' ' :: word "function" :: .mark ' ' :: word name ::
        (signature.pieces ++ .mark c :: Text.pieces rest) := by
    rw [pieces_append_mark rfl, pieces_append_mark rfl, (isWord_linkage linkage).pieces, signature.pieces_append h,
      pieces_append_mark hc, signature.pieces_text]
    rfl
  have hplain : isMark '\n' = true := rfl
  cases opens with
  | false =>
    simp only [text, Bool.false_eq_true, if_false, String.toList_append, List.append_assoc]
    exact (hhead hplain []).trans (by simp [pieces, Text.pieces])
  | true =>
    simp only [text, if_true, String.toList_append, List.append_assoc]
    refine (hhead (c := ' ') rfl ['\x7b', '\n']).trans ?_
    simp [pieces, show Text.pieces ['\x7b', '\n'] = [word "\x7b", .mark '\n'] from rfl]

theorem pieces_text_inst {result : Option Shown} {operation : Operation} (h : (inst result operation).IsWritten) :
    Text.pieces (inst result operation).text.toList = (inst result operation).pieces ++ [.mark '\n'] := by
  obtain ⟨hresult, hoperation⟩ := h
  cases result with
  | none =>
    simp only [text, Option.map_none, Option.getD_none, String.toList_append, List.append_assoc]
    show Text.pieces (' ' :: ' ' :: (operation.text.toList ++ '\n' :: [])) = _
    rw [pieces_cons_mark rfl, pieces_cons_mark rfl, pieces_append_mark rfl, Operation.pieces_text hoperation]
    rfl
  | some v =>
    simp only [text, Option.map_some, Option.getD_some, String.toList_append, List.append_assoc]
    show Text.pieces (' ' :: ' ' :: (v.text.toList ++ ' ' :: '=' :: ' ' :: (operation.text.toList ++ '\n' :: []))) = _
    rw [pieces_cons_mark rfl, pieces_cons_mark rfl, pieces_append_mark rfl, pieces_cons_mark rfl, pieces_cons_mark rfl,
      pieces_append_mark rfl, Operation.pieces_text hoperation, Shown.pieces_text (hresult v rfl)]
    simp [pieces, Text.pieces]

theorem pieces_text {l : Line} (h : l.IsWritten) : Text.pieces l.text.toList = l.pieces ++ [.mark '\n'] := by
  cases l with
  | global g => exact pieces_text_global h
  | data d =>
    simp only [text, DataObject.line, String.toList_append, List.append_assoc]
    show Text.pieces ("data".toList ++ ' ' :: (d.name.toList ++ ' ' :: '=' :: ' ' :: ((Text.quoteBytes d.bytes).toList ++
      '\n' :: []))) = _
    rw [pieces_append_mark rfl, pieces_append_mark rfl, pieces_cons_mark rfl, pieces_cons_mark rfl,
      pieces_append_mark rfl, IsWord.pieces h]
    rfl
  | blank => rfl
  | head linkage name signature opens => exact pieces_text_head h signature opens
  | slot i d =>
    have hname : d.name ≠ "" := fun heq => h.ne_nil (by rw [heq]; rfl)
    simp only [text, Function.slotLine, if_neg hname, String.toList_append, List.append_assoc]
    show Text.pieces (' ' :: ' ' :: (i.text.toList ++ ':' :: ' ' :: (d.ty.text.toList ++ ' ' :: ';' :: ' ' ::
      (d.name.toList ++ '\n' :: [])))) = _
    rw [pieces_cons_mark rfl, pieces_cons_mark rfl, pieces_append_mark rfl, pieces_cons_mark rfl, pieces_append_mark rfl,
      pieces_cons_mark rfl, pieces_cons_mark rfl, pieces_append_mark rfl, (isWord_id i).pieces, (isWord_ty d.ty).pieces,
      IsWord.pieces h]
    rfl
  | block b params =>
    have hrows : (params.map typedText).map (fun t => Text.pieces t.toList) = params.map typedPieces := by
      rw [List.map_map]
      exact List.map_congr_left fun p hp => typedPieces_text (h p hp)
    simp only [text, String.toList_append, List.append_assoc]
    show Text.pieces (b.text.toList ++ '(' :: ((commaSeparated _).toList ++ ')' :: ':' :: '\n' :: [])) = _
    rw [pieces_append_mark rfl, pieces_append_mark rfl, commaSeparated, Text.pieces_commaSeparated, hrows,
      (isWord_id b).pieces]
    simp [pieces, show Text.pieces [':', '\n'] = [.mark ':', .mark '\n'] from rfl]
  | inst result operation => exact pieces_text_inst h
  | close => rfl

theorem newline_not_mem_pieces (l : Line) : .mark '\n' ∉ l.pieces := by
  cases l with
  | global g => cases hinit : g.init <;> simp [pieces, hinit]
  | data d =>
    have hbytes : .mark '\n' ∉ Text.pieces (Text.quoteBytes d.bytes).toList := fun hmem =>
      Text.newline_not_mem_quoteBytes d.bytes (Text.mem_of_mark_mem_pieces hmem)
    simp [pieces, hbytes]
  | blank => simp [pieces]
  | head linkage name signature opens => cases opens <;> simp [pieces, signature.newline_not_mem_pieces]
  | slot i d => simp [pieces]
  | block b params =>
    have hrows : .mark '\n' ∉ commaPieces (params.map typedPieces) := by
      refine Text.mark_not_mem_commaPieces (by decide) (by decide) fun ps hps => ?_
      obtain ⟨p, -, rfl⟩ := List.mem_map.mp hps
      exact mark_not_mem_typedPieces p (by decide)
    simp [pieces, hrows]
  | inst result operation =>
    have hoperation := operation.mark_not_mem_pieces (c := '\n') (by decide)
    cases result with
    | none => simp [pieces, hoperation]
    | some v => simp [pieces, hoperation, v.mark_not_mem_pieces]
  | close => simp [pieces]

/-- A result and an operation are told apart by the sign between them. -/
theorem result_inj {result result' : Option Shown} {o o' : Operation}
    (h : (result.map fun v => v.pieces ++ [.mark ' ', .mark '=', .mark ' ']).getD [] ++ o.pieces =
      (result'.map fun v => v.pieces ++ [.mark ' ', .mark '=', .mark ' ']).getD [] ++ o'.pieces) :
    result = result' ∧ o.pieces = o'.pieces := by
  have hspace (v : Shown) : .mark ' ' ∉ v.pieces := v.mark_not_mem_pieces (by decide) (by decide)
  -- after the first space of an operation there is a word
  have hnone (v : Shown) (o o' : Operation) :
      o.pieces ≠ v.pieces ++ .mark ' ' :: .mark '=' :: .mark ' ' :: o'.pieces := by
    intro heq
    rcases o.operands_cases with hnil | ⟨w, ps, hcons⟩
    · have hmem : .mark ' ' ∈ o.pieces := heq ▸ List.mem_append_right _ List.mem_cons_self
      rw [Operation.pieces, hnil] at hmem
      cases List.mem_singleton.mp hmem
    · have hfirst : [word (mnemonic o.head.1 o.head.2)] ++ .mark ' ' :: word w :: ps =
          v.pieces ++ .mark ' ' :: .mark '=' :: .mark ' ' :: o'.pieces := by
        rw [← heq, Operation.pieces, hcons]
        rfl
      exact Text.word_ne_mark _ _ (List.cons.inj (Text.append_cons_inj (by simp) (hspace v) hfirst).2).1
  cases result <;> cases result' <;>
    simp only [Option.map_none, Option.map_some, Option.getD_none, Option.getD_some, List.nil_append, List.append_assoc,
      List.cons_append] at h
  case none.none => exact ⟨rfl, h⟩
  case none.some v => exact absurd h (hnone v o o')
  case some.none v => exact absurd h.symm (hnone v o' o)
  case some.some v v' =>
    obtain ⟨hv, hrest⟩ := Text.append_cons_inj (hspace v) (hspace v') h
    simp only [List.cons.injEq, true_and] at hrest
    rw [Shown.pieces_inj hv]
    exact ⟨rfl, hrest⟩

theorem pieces_inj_global {g g' : Global} (h : (global g).IsWritten) (h' : (global g').IsWritten)
    (heq : (global g).pieces = (global g').pieces) : g = g' := by
  obtain ⟨name, ty, linkage, init⟩ := g
  obtain ⟨name', ty', linkage', init'⟩ := g'
  cases init with
  | none =>
    cases init' with
    | none =>
      simp only [pieces, Option.map_none, Option.getD_none, List.cons_append, List.nil_append, List.cons.injEq, word_inj,
        true_and, and_true] at heq
      obtain ⟨rfl, hty, hlinkage⟩ := heq
      rw [Ty.text_inj hty, Linkage.text_inj hlinkage]
    | some c' => simp [pieces] at heq
  | some c =>
    cases init' with
    | none => simp [pieces] at heq
    | some c' =>
      simp only [pieces, Option.map_some, Option.getD_some, List.cons_append, List.nil_append, List.cons.injEq, word_inj,
        true_and, and_true] at heq
      obtain ⟨rfl, hty, hinit, hlinkage⟩ := heq
      obtain ⟨hc, hnumber⟩ := h.2 c rfl
      obtain ⟨hc', hnumber'⟩ := h'.2 c' rfl
      have htypes : c.ty = c'.ty := hc.trans ((Ty.text_inj hty).trans hc'.symm)
      rw [Ty.text_inj hty, Linkage.text_inj hlinkage, Constant.text_inj hnumber hnumber' htypes hinit]

theorem pieces_inj {l l' : Line} (h : l.IsWritten) (h' : l'.IsWritten) (heq : l.pieces = l'.pieces) : l = l' := by
  have hcolon (result : Option Shown) (o : Operation) : .mark ':' ∉ (inst result o).pieces := by
    have ho := o.mark_not_mem_pieces (c := ':') (by decide)
    cases result with
    | none => simp [pieces, ho]
    | some v => simp [pieces, ho, v.mark_not_mem_pieces]
  cases l <;> cases l'
  case global.global g g' => rw [pieces_inj_global h h' heq]
  case data.data d d' =>
    obtain ⟨name, bytes⟩ := d
    obtain ⟨name', bytes'⟩ := d'
    simp only [pieces, List.cons_append, List.nil_append, List.cons.injEq, true_and, word_inj] at heq
    obtain ⟨rfl, hbytes⟩ := heq
    rw [Text.quoteBytes_inj (String.toList_inj.mp (Text.pieces_inj hbytes))]
  case head.head linkage name signature opens linkage' name' signature' opens' =>
    simp only [pieces, List.cons_append, List.nil_append, List.cons.injEq, true_and, word_inj] at heq
    obtain ⟨hlinkage, rfl, hrest⟩ := heq
    obtain ⟨rfl, hopens⟩ := Signature.pieces_inj hrest
    have : opens = opens' := by cases opens <;> cases opens' <;> first | rfl | cases hopens
    rw [Linkage.text_inj hlinkage, this]
  case block.block b params b' params' =>
    simp only [pieces, List.cons_append, List.nil_append, List.cons.injEq, true_and, word_inj] at heq
    obtain ⟨hb, hrows⟩ := heq
    have hne (ps : List (Shown × Ty)) : [] ∉ ps.map typedPieces := by simp [typedPieces]
    have hcomma (ps : List (Shown × Ty)) : ∀ row ∈ ps.map typedPieces, .mark ',' ∉ row := by
      intro row hrow
      obtain ⟨p, -, rfl⟩ := List.mem_map.mp hrow
      exact mark_not_mem_typedPieces p (by decide)
    have hparams := commaPieces_inj (hne params) (hne params') (hcomma params) (hcomma params')
      (List.append_cancel_right hrows)
    rw [Id.text_inj hb, List.map_injective_iff.mpr (fun _ _ => typedPieces_inj) hparams]
  case slot.slot i d i' d' =>
    obtain ⟨ty, name⟩ := d
    obtain ⟨ty', name'⟩ := d'
    simp only [pieces, List.cons.injEq, word_inj, true_and, and_true] at heq
    obtain ⟨hi, hty, hname⟩ := heq
    rw [Id.text_inj hi, Ty.text_inj hty, hname]
  case inst.inst result o result' o' =>
    simp only [pieces, List.cons_append, List.nil_append, List.cons.injEq, true_and] at heq
    obtain ⟨rfl, ho⟩ := result_inj heq
    rw [Operation.pieces_inj h.2 h'.2 ho]
  case blank.blank => rfl
  case close.close => rfl
  case slot.inst i d result o => exact absurd (heq ▸ by simp [pieces]) (hcolon result o)
  case inst.slot result o i d => exact absurd (heq.symm ▸ by simp [pieces]) (hcolon result o)
  all_goals simp [pieces] at heq

theorem pieces_join {ls : List Line} (h : ∀ l ∈ ls, l.IsWritten) :
    Text.pieces (String.join (ls.map text)).toList = ls.flatMap fun l => l.pieces ++ [.mark '\n'] := by
  induction ls with
  | nil => rfl
  | cons l ls ih =>
    obtain ⟨hl, hls⟩ := List.forall_mem_cons.mp h
    rw [List.map_cons, String.join_cons, String.toList_append, Text.pieces_append_of_mark rfl (pieces_text hl), ih hls,
      List.flatMap_cons, List.append_assoc]
    rfl

/-- **Lines are told by the text they make together.** -/
theorem join_inj {ls ls' : List Line} (h : ∀ l ∈ ls, l.IsWritten) (h' : ∀ l ∈ ls', l.IsWritten)
    (heq : String.join (ls.map text) = String.join (ls'.map text)) : ls = ls' := by
  have hpieces : ls.map pieces = ls'.map pieces := by
    refine Text.lines_inj ?_ ?_ ?_
    · simp [newline_not_mem_pieces]
    · simp [newline_not_mem_pieces]
    · rw [List.flatMap_map, List.flatMap_map, ← pieces_join h, ← pieces_join h', heq]
  clear heq
  induction ls generalizing ls' with
  | nil => exact (List.map_eq_nil_iff.mp hpieces.symm).symm
  | cons l ls ih =>
    cases ls' with
    | nil => cases hpieces
    | cons l' ls' =>
      obtain ⟨hl, hls⟩ := List.forall_mem_cons.mp h
      obtain ⟨hl', hls'⟩ := List.forall_mem_cons.mp h'
      obtain ⟨hline, hlines⟩ := List.cons.inj hpieces
      rw [pieces_inj hl hl' hline, ih hls hls' hlines]

end Line

end SsaCompiler.Ir
