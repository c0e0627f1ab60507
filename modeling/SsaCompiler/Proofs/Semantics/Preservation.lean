import SsaCompiler.Proofs.Lowering.Guarantees
import SsaCompiler.Proofs.Semantics.Body

/-!
# Lowering preserves meaning

A lowered function does what its body does: for any interpretation of the operations, any oracle, any
arguments and any world around the call, it returns what the body returns and leaves the same world,
with the same calls in the same order.

    (lower p …).1 = .ok m, decl ∈ p.functions, decl.body = some ss →
      runBody I O p decl ss args w = runFunction I O m f args w     for the function `f` of that name in `m`
-/

namespace SsaCompiler.Semantics

open Lang (Program Prim Stmt FunctionDecl Binding Names)
open Lowering (Declarations)
open Ir (Module Function)

/-- Declared names mean what the program declares. -/
theorem Knows.of_match {d : Declarations} {Γ : Names} {p : Program} (h : d.Match Γ)
    (hglobals : Γ.globals = p.globals)
    (hfunctions : ∀ name f, Γ.function? name = some f → p.functions.find? (·.name = name) = some f) :
    Knows d p where
  globals := by
    intro name g hg
    have hmatch := h.globals name
    rw [hg, Option.map_some] at hmatch
    obtain ⟨decl, hdecl, hty⟩ := Option.map_eq_some_iff.mp hmatch.symm
    exact ⟨decl, by rw [← hglobals]; exact hdecl, hty⟩
  functions := by
    intro name info hinfo
    cases hf : Γ.function? name with
    | none =>
      rw [(h.functions name).mpr hf] at hinfo
      cases hinfo
    | some f => exact ⟨f, hfunctions name f hf, (h.declares name info f hinfo hf).ret.symm⟩

/-- The function of a declaration with a body is the only one of its name, and does what the body does. -/
theorem lower_preserves (p : Program) (name : String) (validate : Bool) (journal : Journal) (m : Module)
    (h : (Lowering.lower p name validate journal).1 = .ok m) (decl : FunctionDecl) (hdecl : decl ∈ p.functions)
    (ss : List Stmt) (hbody : decl.body = some ss) :
    ∃ id f, m.functions.get? id = some f ∧ f.name = decl.name ∧
      (∀ id' f', m.functions.get? id' = some f' → f'.name = decl.name → id' = id) ∧
      ∀ (V σ : Type) (I : Interpretation V) (O : Oracle V σ) (args : List V) (w : World V σ),
        args.length = decl.fixedParams.length →
        ∃ r w', runBody I O p decl ss args w = some (r, w') ∧ runFunction I O m f args w = some (r, w') := by
  rcases Lowering.lower_cases p name journal with ⟨-, s, hholds, hlower⟩ | ⟨-, e, journal', -, hlower⟩
  · rw [hlower validate] at h
    cases h
    obtain ⟨Γ, d, n, b, i, linkage, sig, id, ⟨hgs, hfs⟩, ⟨hmatch, hin, hsig, hdescribes⟩, hemits, hwithin, hget⟩ :=
      hholds.bodies decl hdecl ss hbody
    obtain ⟨-, hext⟩ := hemits.finished hsig hin hdescribes
    have hname : b.func.name = decl.name := hext.func.name
    refine ⟨id, b.func, hget, hname, ?_, ?_⟩
    · intro id' f' hget' hname'
      obtain ⟨info, hinfo, rfl, -⟩ := hholds.functions id b.func hget
      obtain ⟨info', hinfo', rfl, -⟩ := hholds.functions id' f' hget'
      rw [hname', ← hname, hinfo] at hinfo'
      cases hinfo'
      rfl
    · intro V σ I O args w hlen
      exact runs_body (.of_match hmatch hgs hfs) hemits hsig hin hdescribes hwithin hlen w
  · rw [hlower validate] at h
    cases h

/-- A function that calls `put` with its parameter as a wider number, and returns the sum with a global. -/
def total : FunctionDecl :=
  { name := "total", external := false, params := [.named "a" (.int .signed .w32)], ret := .int .signed .w64
    body := some
      [.bind { name := "b", ty := .int .signed .w64, init := .name "a", line := 4 },
       .call { callee := "put", args := [.name "b"], line := 5 },
       .ret (.binary .add (.name "b") (.name "g")) 6]
    line := 3 }

def totals : Program :=
  { globals := [{ name := "g", ty := .int .signed .w64, init := .literal (.int .signed .w64) "5", line := 1 }]
    functions :=
      [{ name := "put", external := true, params := [.named "x" (.int .signed .w64)], ret := .void, body := none
         line := 2 },
       total] }

/-- Integers, with addition as the one operator. -/
def integers : Interpretation Int where
  integer := fun _ bits => bits.toInt
  floating := fun _ _ => 0
  address := fun _ => 0
  unary := fun _ x _ => x.val
  binary := fun op x y => if op = .iadd then x.val + y.val else 0

/-- One global, which every call increases. -/
def counter : Oracle Int Int where
  global := fun n _ => n
  answer := fun n _ _ => (0, n + 1)

/-- The call comes before the global is read. -/
theorem lower_preserves_total : ∃ m id f, (Lowering.lower totals "totals" true .empty).1 = .ok m ∧
    m.functions.get? id = some f ∧ f.name = "total" ∧
    runFunction integers counter m f [7] ⟨5, []⟩ =
      some (some ⟨.int .w64, 13⟩, ⟨6, [("put", [⟨.int .w64, 7⟩])]⟩) := by
  have hlower : (Lowering.lower totals "totals" true .empty).1.isOk = true := by decide +kernel
  have hbody : ∃ ss, total.body = some ss ∧ runBody integers counter totals total ss [7] ⟨5, []⟩ =
      some (some ⟨.int .w64, 13⟩, ⟨6, [("put", [⟨.int .w64, 7⟩])]⟩) :=
    ⟨_, rfl, rfl⟩
  cases hm : (Lowering.lower totals "totals" true .empty).1 with
  | error e =>
    rw [hm] at hlower
    cases hlower
  | ok m =>
    obtain ⟨ss, hss, hrun⟩ := hbody
    obtain ⟨id, f, hf, hname, -, hsame⟩ :=
      lower_preserves totals "totals" true .empty m hm total (.tail _ (.head _)) ss hss
    obtain ⟨r, w', hr, hr'⟩ := hsame Int Int integers counter [7] ⟨5, []⟩ rfl
    rw [hrun] at hr
    exact ⟨m, id, f, rfl, hf, hname, by rw [hr', ← hr]⟩

end SsaCompiler.Semantics
