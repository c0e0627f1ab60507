import SsaCompiler.Proofs.Lang.Program.Runs

/-!
# What is read as an expression

What has been read of an expression is a beginning of it, after which an operand is expected, with a
factor after it or not.  A token that finds no operand where one has to be is on no successful run:

    Open pre ps os                      pre is a beginning, kept on the stacks (ps, os)
    Holds IsFactor pre ps os            pre is a beginning with a factor after it
    Open pre ps os → os is as long as the operators of ps are many                     (Open.length_eq)

Applying operators makes products and sums of what is on top (exists_product, exists_sum), and the end of an
expression or of a call finds the whole of it (Runs.spells).
-/

namespace SsaCompiler.Lang

open Lang.Frame (Applies Below below_nil below_paren below_op waiting)

/-! ## Beginnings of an expression -/

/-- The beginnings of an expression that an operand may follow, with the stacks that keep them. -/
inductive Open : List Token → List Pending → List Expr → Prop
  | start : Open [] [] []
  | paren {pre : List Token} {ps : List Pending} {os : List Expr} {o : Token} (h : Open pre ps os)
      (ho : o.kind = .leftParen) (line : Nat) : Open (pre ++ [o]) (.paren line :: ps) os
  | sum {pre ts : List Token} {ps : List Pending} {os : List Expr} {t : Token} {op : BinaryOp} {l : Expr}
      (h : Open pre ps os) (hps : Below 12 ps) (hl : IsSum ts l) (hop : SumOp t.kind op) (line : Nat) :
      Open (pre ++ ts ++ [t]) (.op op line :: ps) (l :: os)
  | product {pre ts : List Token} {ps : List Pending} {os : List Expr} {t : Token} {op : BinaryOp} {l : Expr}
      (h : Open pre ps os) (hps : Below 13 ps) (hl : IsProduct ts l) (hop : ProductOp t.kind op) (line : Nat) :
      Open (pre ++ ts ++ [t]) (.op op line :: ps) (l :: os)

/-- A beginning of an expression with an operand of some kind after it. -/
def Holds (C : List Token → Expr → Prop) (pre : List Token) (ps : List Pending) (os : List Expr) : Prop :=
  ∃ before ts e under, Open before ps under ∧ C ts e ∧ pre = before ++ ts ∧ os = e :: under

section Stacks

variable {pre : List Token} {ps ps' : List Pending} {os os' : List Expr}

theorem Open.length_eq (h : Open pre ps os) : os.length = waiting ps := by
  induction h with
  | start => rfl
  | paren _ _ _ ih => exact ih
  | sum _ _ _ _ _ ih => exact congrArg (· + 1) ih
  | product _ _ _ _ _ ih => exact congrArg (· + 1) ih

theorem Open.holds {C : List Token → Expr → Prop} {ts : List Token} {e : Expr} (h : Open pre ps os) (he : C ts e) :
    Holds C (pre ++ ts) ps (e :: os) :=
  ⟨pre, ts, e, os, h, he, rfl, rfl⟩

/-- The factor on top and the products before it are a product. -/
theorem exists_product (h : Holds IsFactor pre ps os) :
    ∃ ps' os', Applies 13 ps os ps' os' ∧ Below 13 ps' ∧ Holds IsProduct pre ps' os' := by
  obtain ⟨before, ts, e, under, hopen, he, rfl, rfl⟩ := h
  cases hopen with
  | start => exact ⟨_, _, .refl _ _, below_nil _, Open.start.holds (.factor he)⟩
  | paren hopen ho line => exact ⟨_, _, .refl _ _, below_paren _ _ _, (hopen.paren ho line).holds (.factor he)⟩
  | @sum _ _ _ _ _ op _ hopen hps hl hop line =>
    have hlt : op.precedence < 13 := by
      rw [hop.precedence_eq]
      decide
    exact ⟨_, _, .refl _ _, below_op hlt line _, (hopen.sum hps hl hop line).holds (.factor he)⟩
  | product hopen hps hl hop line =>
    refine ⟨_, _, .step (Nat.le_of_eq hop.precedence_eq.symm) (.refl _ _), hps, ?_⟩
    have := hopen.holds (IsProduct.more hl hop he)
    simpa using this

/-- The product on top and the sums before it are a sum. -/
theorem exists_sum (hbelow : Below 13 ps) (h : Holds IsProduct pre ps os) :
    ∃ ps' os', Applies 12 ps os ps' os' ∧ Below 12 ps' ∧ Holds IsSum pre ps' os' := by
  obtain ⟨before, ts, e, under, hopen, he, rfl, rfl⟩ := h
  cases hopen with
  | start => exact ⟨_, _, .refl _ _, below_nil _, Open.start.holds (.product he)⟩
  | paren hopen ho line => exact ⟨_, _, .refl _ _, below_paren _ _ _, (hopen.paren ho line).holds (.product he)⟩
  | sum hopen hps hl hop line =>
    refine ⟨_, _, .step (Nat.le_of_eq hop.precedence_eq.symm) (.refl _ _), hps, ?_⟩
    have := hopen.holds (IsSum.more hl hop he)
    simpa using this
  | product hopen hps hl hop line =>
    have := hbelow _ _ _ rfl
    rw [hop.precedence_eq] at this
    exact absurd this (by decide)

theorem exists_sum_of_factor (h : Holds IsFactor pre ps os) :
    ∃ ps' os', Applies 12 ps os ps' os' ∧ Below 12 ps' ∧ Holds IsSum pre ps' os' := by
  obtain ⟨ps₁, os₁, happlies, hbelow, h⟩ := exists_product h
  obtain ⟨ps₂, os₂, happlies', hbelow', h⟩ := exists_sum hbelow h
  exact ⟨ps₂, os₂, (happlies.mono (by decide)).trans happlies', hbelow', h⟩

/-- Only a parenthesis or nothing is below every operator. -/
theorem Open.of_below (h : Open pre ps os) (hbelow : Below 12 ps) :
    (pre = [] ∧ ps = [] ∧ os = []) ∨
      ∃ before o line under, pre = before ++ [o] ∧ o.kind = .leftParen ∧ ps = .paren line :: under ∧
        Open before under os := by
  cases h with
  | start => exact .inl ⟨rfl, rfl, rfl⟩
  | paren h ho line => exact .inr ⟨_, _, line, _, rfl, ho, rfl, h⟩
  | sum _ _ _ hop =>
    have := hbelow _ _ _ rfl
    rw [hop.precedence_eq] at this
    exact absurd this (by decide)
  | product _ _ _ hop =>
    have := hbelow _ _ _ rfl
    rw [hop.precedence_eq] at this
    exact absurd this (by decide)

/-! ## Operators, parentheses and the end -/

theorem open_of_operator {f f' : Frame} {t : Token} {op : BinaryOp} (hop : SumOp t.kind op ∨ ProductOp t.kind op)
    (h : Holds IsFactor pre f.pending f.operands) (hf : f.operator op t.line = .ok f') :
    Open (pre ++ [t]) f'.pending f'.operands := by
  obtain ⟨⟨ps, os⟩, hreduce, hf⟩ := Reader.bind_eq_ok.mp hf
  cases hf
  rcases hop with hop | hop
  · obtain ⟨ps₁, os₁, happlies, hbelow, before, ts, e, under, hopen, he, rfl, rfl⟩ := exists_sum_of_factor h
    rw [happlies.reduceBefore (Nat.le_of_eq hop.precedence_eq),
      Frame.reduceBefore_of_below (hop.precedence_eq.symm ▸ hbelow)] at hreduce
    cases hreduce
    exact hopen.sum hbelow he hop t.line
  · obtain ⟨ps₁, os₁, happlies, hbelow, before, ts, e, under, hopen, he, rfl, rfl⟩ := exists_product h
    rw [happlies.reduceBefore (Nat.le_of_eq hop.precedence_eq),
      Frame.reduceBefore_of_below (hop.precedence_eq.symm ▸ hbelow)] at hreduce
    cases hreduce
    exact hopen.product hbelow he hop t.line

theorem holds_of_closeParen {f f' : Frame} {c : Token} (hc : c.kind = .rightParen)
    (h : Holds IsFactor pre f.pending f.operands) (hf : f.closeParen c.line = .ok f') :
    Holds IsFactor (pre ++ [c]) f'.pending f'.operands := by
  obtain ⟨⟨ps, os⟩, hreduce, hf⟩ := Reader.bind_eq_ok.mp hf
  cases hf
  obtain ⟨ps₁, os₁, happlies, hbelow, before, ts, e, under, hopen, he, rfl, rfl⟩ := exists_sum_of_factor h
  rw [happlies.reduceToParen] at hreduce
  rcases hopen.of_below hbelow with ⟨-, rfl, -⟩ | ⟨outer, o, line, ps₂, rfl, ho, rfl, houter⟩
  · cases hreduce
  · cases hreduce
    have := houter.holds (IsFactor.paren ho he hc)
    simpa using this

theorem isSum_of_finish {f : Frame} {e : Expr} (h : Holds IsFactor pre f.pending f.operands)
    (hf : f.finish = .ok e) : IsSum pre e := by
  have hreduce := Frame.reduceAll_of_finish hf
  obtain ⟨ps₁, os₁, happlies, hbelow, before, ts, e', under, hopen, he, rfl, rfl⟩ := exists_sum_of_factor h
  rw [happlies.reduceAll] at hreduce
  rcases hopen.of_below hbelow with ⟨rfl, rfl, rfl⟩ | ⟨outer, o, line, ps₂, rfl, ho, rfl, houter⟩
  · cases hreduce
    exact he
  · cases hreduce

/-- Where a run stands in an expression: after an operand or before one. -/
def Stands : Bool → List Token → List Pending → List Expr → Prop
  | false => Open
  | true => Holds IsFactor

/-- With more operands than operators that wait, a run stands after an operand. -/
theorem Stands.holds {ended : Bool} (h : Stands ended pre ps os) (hlt : waiting ps < os.length) :
    Holds IsFactor pre ps os := by
  cases ended with
  | true => exact h
  | false => exact absurd h.length_eq (Nat.ne_of_gt hlt)

/-- A run that finishes its expression has read the whole of one. -/
theorem Stands.isSum_of_finish {ended : Bool} {f : Frame} {e : Expr} (h : Stands ended pre f.pending f.operands)
    (hf : f.finish = .ok e) : IsSum pre e := by
  have := Frame.waiting_finish hf
  exact Lang.isSum_of_finish (h.holds (by omega)) hf

end Stacks

/-! ## Arguments -/

/-- The beginnings of arguments that another has to follow. -/
inductive ArgsOpen : List Token → List Expr → Prop
  | nil : ArgsOpen [] []
  | snoc {pre ts : List Token} {es : List Expr} {e : Expr} {comma : Token} (h : ArgsOpen pre es) (he : IsSum ts e)
      (hcomma : comma.kind = .comma) : ArgsOpen (pre ++ ts ++ [comma]) (es ++ [e])

/-- The beginnings of a call that an argument has to follow, with the arguments before it. -/
inductive CallOpen : List Token → Call → Prop
  | mk {t o : Token} {args : List Token} {es : List Expr} (ht : t.kind = .ident) (ho : o.kind = .leftParen)
      (hargs : ArgsOpen args es) : CallOpen (t :: o :: args) { callee := t.lexeme, args := es, line := t.line }

section Calls

variable {pre ts : List Token} {site : Call} {e : Expr} {c : Token}

theorem ArgsOpen.areArgs {es es' : List Expr} (h : ArgsOpen pre es) (hs : AreArgs ts es') :
    AreArgs (pre ++ ts) (es ++ es') := by
  induction h generalizing ts es' with
  | nil => exact hs
  | snoc _ he hcomma ih =>
    have := ih (.more he hcomma hs)
    simpa using this

theorem CallOpen.comma (h : CallOpen pre site) (he : IsSum ts e) (hc : c.kind = .comma) :
    CallOpen (pre ++ ts ++ [c]) (site.addArg e) := by
  cases h with
  | mk ht ho hargs => exact .mk ht ho (hargs.snoc he hc)

theorem CallOpen.isCall (h : CallOpen pre site) (he : IsSum ts e) (hc : c.kind = .rightParen) :
    IsCall (pre ++ ts ++ [c]) (site.addArg e) := by
  cases h with
  | mk ht ho hargs => exact .args ht ho (hargs.areArgs (.one he)) hc

end Calls

/-! ## Runs -/

/-- Whether tokens have some meaning with a token of a kind after them. -/
def EndsIn {α : Type} (kind : TokenKind) (G : List Token → α → Prop) (ts : List Token) (a : α) : Prop :=
  ∃ us t, ts = us ++ [t] ∧ t.kind = kind ∧ G us a

namespace Context

/-- The tokens from the beginning of the goal up to the expression that stands in a context. -/
def Read : {g : Goal} → Context g → List Token → Prop
  | _, .statement, pre => pre = []
  | _, .callGoal site, pre => CallOpen pre site
  | _, .operand site f outer, pre =>
    ∃ before inner args, pre = before ++ inner ++ args ∧ outer.Read before ∧ Open inner f.pending f.operands ∧
      CallOpen args site

/-- What a run delivers for the tokens of its goal: an expression with its semicolon, or a call. -/
def Spells : {g : Goal} → List Token → g.Result → Prop
  | .expression, ts, e => EndsIn .semicolon IsSum ts e
  | .call, ts, site => IsCall ts site

theorem read_of_comma? {g : Goal} {context : Context g} {next : Expr → Context g} {pre ts : List Token} {e : Expr}
    {comma : Token} (h : context.Read pre) (hnext : context.comma? = some next) (he : IsSum ts e)
    (hcomma : comma.kind = .comma) : (next e).Read (pre ++ ts ++ [comma]) := by
  cases context with
  | statement => cases hnext
  | callGoal site =>
    cases hnext
    exact h.comma he hcomma
  | operand site f outer =>
    cases hnext
    obtain ⟨before, inner, args, rfl, hbefore, hinner, hargs⟩ := h
    exact ⟨before, inner, args ++ ts ++ [comma], by simp, hbefore, hinner, hargs.comma he hcomma⟩

/-- **A successful run spells its result.** -/
theorem Runs.spells {g : Goal} {ended : Bool} {context : Context g} {f : Frame} {ts rest : List Token} {r : g.Result}
    (h : Runs ended context f ts r rest) {before inner : List Token} (hcontext : context.Read before)
    (hf : Stands ended inner f.pending f.operands) : ∃ us, ts = us ++ rest ∧ Spells (before ++ inner ++ us) r := by
  induction h generalizing before inner with
  | @literal _ _ _ t _ _ _ _ ht _ ih =>
    obtain ⟨us, rfl, hus⟩ := ih hcontext (Open.holds hf (.literal ht))
    exact ⟨t :: us, rfl, by simpa using hus⟩
  | @name _ _ _ t _ _ _ ht _ ih =>
    obtain ⟨us, rfl, hus⟩ := ih hcontext (Open.holds hf (.name ht))
    exact ⟨t :: us, rfl, by simpa using hus⟩
  | @emptyCall _ _ _ t o c _ _ _ ht ho hc _ ih =>
    obtain ⟨us, rfl, hus⟩ := ih hcontext (Open.holds hf (.call (.empty ht ho hc)))
    exact ⟨t :: o :: c :: us, rfl, by simpa using hus⟩
  | @call _ _ _ t o _ _ _ _ ht ho _ ih =>
    obtain ⟨us, rfl, hus⟩ := ih ⟨before, inner, [t, o], rfl, hcontext, hf, .mk ht ho .nil⟩ Open.start
    exact ⟨t :: o :: us, rfl, by simpa using hus⟩
  | @openParen _ _ _ o _ _ _ ho _ ih =>
    obtain ⟨us, rfl, hus⟩ := ih hcontext (Open.paren hf ho o.line)
    exact ⟨o :: us, rfl, by simpa using hus⟩
  | @operator _ _ _ _ _ t _ _ _ _ hop hop' hrun ih =>
    have := Frame.waiting_operator hop'
    have := hrun.enough.1
    simp only [Bool.toNat_false] at this
    have hholds := hf.holds (by omega)
    obtain ⟨us, rfl, hus⟩ := ih hcontext (open_of_operator hop hholds hop')
    exact ⟨t :: us, rfl, by simpa using hus⟩
  | @closeParen _ _ _ _ _ c _ _ _ hc hclose hrun ih =>
    have := Frame.waiting_closeParen hclose
    have := hrun.enough.1
    simp only [Bool.toNat_true] at this
    have hholds := hf.holds (by omega)
    obtain ⟨us, rfl, hus⟩ := ih hcontext (holds_of_closeParen hc hholds hclose)
    exact ⟨c :: us, rfl, by simpa using hus⟩
  | @callGoal _ _ _ c _ _ hc hfinish =>
    have hsum := hf.isSum_of_finish hfinish
    exact ⟨[c], rfl, CallOpen.isCall hcontext hsum hc⟩
  | @resume _ _ _ _ _ _ c _ _ _ _ hc hfinish _ ih =>
    have hsum := hf.isSum_of_finish hfinish
    obtain ⟨before, outer, args, rfl, hbefore, houter, hargs⟩ := hcontext
    obtain ⟨us, rfl, hus⟩ := ih hbefore (houter.holds (.call (hargs.isCall hsum hc)))
    exact ⟨c :: us, rfl, by simpa using hus⟩
  | @comma _ _ _ _ t _ _ _ _ _ _ ht hfinish hnext _ ih =>
    have hsum := hf.isSum_of_finish hfinish
    obtain ⟨us, rfl, hus⟩ := ih (read_of_comma? hcontext hnext hsum ht) Open.start
    exact ⟨t :: us, rfl, by simpa using hus⟩
  | @semicolon _ _ t _ _ ht hfinish =>
    have hsum := hf.isSum_of_finish hfinish
    cases hcontext
    exact ⟨[t], rfl, inner, t, rfl, ht, hsum⟩

end Context

end SsaCompiler.Lang
