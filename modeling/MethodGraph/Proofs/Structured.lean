import Mathlib.Logic.Function.Basic
import MethodGraph.Eval.Run
import MethodGraph.Method.Loop
/-!
  Structured programs.

  A program declares parameters and locals and has a body made of assignments, returns, conditional
  paths and loops over integer expressions.  It has a meaning of its own, said without blocks and
  builders: an expression has a value, or none where it divides by zero, and `Runs` relates a
  statement and the scalars of its variables to how it ends.  Counting loops evaluate their end and
  their increment once and are then read as loops that test, run the body and count.

  `Program.build` builds the program with the operations of a method under construction.  The body
  of every path and of every loop goes into a builder of its own, which is filled in before the
  construct that uses it is emitted or after that; `early` decides which for each statement.
-/

namespace MethodGraph.Structured

/-! ## Programs -/

/-- Declared names with their types. -/
abbrev Decls := List (String × Ty)

/-- Integer expressions. -/
inductive Expr where
  | const (ty : Ty) (v : Int64)
  | var (x : String)
  | neg (e : Expr)
  | binary (op : Arith) (l r : Expr)
  /-- One if the comparison holds, else zero. -/
  | compare (c : Cmp) (l r : Expr)
  /-- A conversion to another width; the unsigned form reads its source without a sign. -/
  | convert (unsigned : Bool) (ty : Ty) (e : Expr)
  deriving DecidableEq, Repr

inductive Stmt where
  | skip
  | assign (x : String) (e : Expr)
  | seq (s t : Stmt)
  | ret (e : Option Expr)
  /-- The path is taken unless the condition is zero. -/
  | ifThen (c : Expr) (s : Stmt)
  /-- The path is taken if the condition is zero. -/
  | ifElse (c : Expr) (s : Stmt)
  /-- The first path is taken unless the condition is zero, else the second. -/
  | ifBoth (c : Expr) (s t : Stmt)
  /-- Test the variable, and run the body again and again until it is zero. -/
  | whileDo (x : String) (s : Stmt)
  /-- Run the body until the variable is zero behind it. -/
  | doWhile (x : String) (s : Stmt)
  /-- Count a variable up (or down) to a value that it does not reach. -/
  | forLoop (up : Bool) (x : String) (initial last increment : Expr) (s : Stmt)
  deriving DecidableEq, Repr

structure Program where
  params : Decls
  locals : Decls
  /-- The type of what the program returns. -/
  result : Ty
  body : Stmt

/-- All declared names. -/
def Program.decls (p : Program) : Decls := p.params ++ p.locals

/-! ## Types -/

namespace Expr

/-- The type of an expression. -/
def ty (Γ : Decls) : Expr → Ty
  | const ty _ => ty
  | var x => (Γ.lookup x).getD .void
  | neg e => e.ty Γ
  | binary _ l _ => l.ty Γ
  | compare .. => .int32
  | convert _ ty _ => ty

/-- All variables are declared, everything is an integer, and what an operator takes has one type;
    only the amount of a shift may have another. -/
def wellTyped (Γ : Decls) : Expr → Bool
  | const ty _ => ty.isInteger
  | var x => (Γ.lookup x).any Ty.isInteger
  | neg e => e.wellTyped Γ
  | binary op l r => l.wellTyped Γ && r.wellTyped Γ && !op.isUnary &&
      (op.isShift || l.ty Γ = r.ty Γ)
  | compare _ l r => l.wellTyped Γ && r.wellTyped Γ && l.ty Γ = r.ty Γ
  | convert _ ty e => e.wellTyped Γ && ty.isInteger

end Expr

/-- Expressions are well typed and have the types of what they are assigned to. -/
def Stmt.wellTyped (Γ : Decls) (result : Ty) : Stmt → Bool
  | skip => true
  | assign x e => e.wellTyped Γ && Γ.lookup x = some (e.ty Γ)
  | seq s t => s.wellTyped Γ result && t.wellTyped Γ result
  | ret none => true
  | ret (some e) => e.wellTyped Γ && e.ty Γ = result
  | ifThen c s => c.wellTyped Γ && s.wellTyped Γ result
  | ifElse c s => c.wellTyped Γ && s.wellTyped Γ result
  | ifBoth c s t => c.wellTyped Γ && s.wellTyped Γ result && t.wellTyped Γ result
  | whileDo x s => (Expr.var x).wellTyped Γ && s.wellTyped Γ result
  | doWhile x s => (Expr.var x).wellTyped Γ && s.wellTyped Γ result
  | forLoop _ x initial last increment s =>
    [initial, last, increment].all (fun e => e.wellTyped Γ && Γ.lookup x = some (e.ty Γ)) &&
      s.wellTyped Γ result

/-- No name is declared twice, and the body is well typed. -/
def Program.wellTyped (p : Program) : Bool :=
  (p.decls.map (·.1)).Nodup && p.body.wellTyped p.decls p.result

/-! ## Meaning -/

/-- The scalars of the variables. -/
abbrev Env := String → Scalar

namespace Expr

/-- An operator on integers of one width: the result is computed on 64 bits and cut to the width.
    A division by zero has none. -/
def apply (op : Arith) (ty : Ty) (a b : Int64) : Option Scalar :=
  match op.onInts ty a b with
  | .ok r => r.map fun v => .int (ty.wrapInt v)
  | .error _ => none

/-- The value of an expression; none if it divides by zero. -/
def eval (Γ : Decls) (ρ : Env) : Expr → Option Scalar
  | const ty v => some (.int (ty.wrapInt v))
  | var x => some (ρ x)
  | neg e => do
    let a ← e.eval Γ ρ
    return Arith.negate (e.ty Γ) a
  | binary op l r => do
    let a ← l.eval Γ ρ
    let b ← r.eval Γ ρ
    apply op (l.ty Γ) a.toInt b.toInt
  | compare c l r => do
    let a ← l.eval Γ ρ
    let b ← r.eval Γ ρ
    return .int (if c.holdsInt a.toInt b.toInt then 1 else 0)
  | convert unsigned ty e => do
    let a ← e.eval Γ ρ
    return a.convert (e.ty Γ) ty unsigned

end Expr

/-- How a statement ends. -/
inductive Result where
  /-- Control goes on behind it. -/
  | done (ρ : Env)
  | returned (v : Option Scalar)
  /-- An expression divides by zero. -/
  | divided

/-- Control does not go on. -/
def Result.Leaves : Result → Prop
  | done _ => False
  | _ => True

/-- What an evaluation of the program answers. -/
def Result.answer : Result → Except EvalError (Option Scalar)
  | done _ => .ok none
  | returned v => .ok v
  | divided => .error .divisionByZero

/-- The expressions that a statement evaluates before anything else. -/
def Stmt.heads : Stmt → List Expr
  | assign _ e => [e]
  | ret (some e) => [e]
  | ifThen c _ => [c]
  | ifElse c _ => [c]
  | ifBoth c _ _ => [c]
  | forLoop _ _ initial last increment _ => [initial, last, increment]
  | _ => []

/-- What there is to run: a statement, or the rounds of a counting loop whose end and increment
    have been evaluated. -/
inductive Task where
  | stmt (s : Stmt)
  | rounds (up : Bool) (x : String) (last increment : Scalar) (s : Stmt)

/-- A counting loop goes on for another round. -/
def within (up : Bool) (i last : Scalar) : Bool :=
  (if up then Cmp.lt else Cmp.gt).holdsInt i.toInt last.toInt

/-- The variable of a counting loop in the next round. -/
def count (up : Bool) (ty : Ty) (i increment : Scalar) : Scalar :=
  .int (ty.wrapInt (if up then i.toInt + increment.toInt else i.toInt - increment.toInt))

/-- How a task ends when it starts with the given variables. -/
inductive Runs (Γ : Decls) : Task → Env → Result → Prop where
  | skip {ρ : Env} : Runs Γ (.stmt .skip) ρ (.done ρ)
  | divided {s : Stmt} {e : Expr} {ρ : Env} (he : e ∈ s.heads) (h : e.eval Γ ρ = none) :
    Runs Γ (.stmt s) ρ .divided
  | assign {x : String} {e : Expr} {a : Scalar} {ρ : Env} (h : e.eval Γ ρ = some a) :
    Runs Γ (.stmt (.assign x e)) ρ (.done (Function.update ρ x a))
  | seq {s t : Stmt} {ρ ρ' : Env} {r : Result} (hs : Runs Γ (.stmt s) ρ (.done ρ'))
    (ht : Runs Γ (.stmt t) ρ' r) : Runs Γ (.stmt (.seq s t)) ρ r
  | seqLeaves {s t : Stmt} {ρ : Env} {r : Result} (hs : Runs Γ (.stmt s) ρ r) (hr : r.Leaves) :
    Runs Γ (.stmt (.seq s t)) ρ r
  | retVoid {ρ : Env} : Runs Γ (.stmt (.ret none)) ρ (.returned none)
  | ret {e : Expr} {a : Scalar} {ρ : Env} (h : e.eval Γ ρ = some a) :
    Runs Γ (.stmt (.ret (some e))) ρ (.returned (some a))
  | ifThen {c : Expr} {a : Scalar} {s : Stmt} {ρ : Env} {r : Result} (h : c.eval Γ ρ = some a)
    (hs : Runs Γ (.stmt (if a.toInt = 0 then .skip else s)) ρ r) :
    Runs Γ (.stmt (.ifThen c s)) ρ r
  | ifElse {c : Expr} {a : Scalar} {s : Stmt} {ρ : Env} {r : Result} (h : c.eval Γ ρ = some a)
    (hs : Runs Γ (.stmt (if a.toInt = 0 then s else .skip)) ρ r) :
    Runs Γ (.stmt (.ifElse c s)) ρ r
  | ifBoth {c : Expr} {a : Scalar} {s t : Stmt} {ρ : Env} {r : Result} (h : c.eval Γ ρ = some a)
    (hs : Runs Γ (.stmt (if a.toInt = 0 then t else s)) ρ r) :
    Runs Γ (.stmt (.ifBoth c s t)) ρ r
  | whileStop {x : String} {s : Stmt} {ρ : Env} (h : (ρ x).toInt = 0) :
    Runs Γ (.stmt (.whileDo x s)) ρ (.done ρ)
  | whileDo {x : String} {s : Stmt} {ρ ρ' : Env} {r : Result} (h : (ρ x).toInt ≠ 0)
    (hs : Runs Γ (.stmt s) ρ (.done ρ')) (hw : Runs Γ (.stmt (.whileDo x s)) ρ' r) :
    Runs Γ (.stmt (.whileDo x s)) ρ r
  | whileLeaves {x : String} {s : Stmt} {ρ : Env} {r : Result} (h : (ρ x).toInt ≠ 0)
    (hs : Runs Γ (.stmt s) ρ r) (hr : r.Leaves) : Runs Γ (.stmt (.whileDo x s)) ρ r
  | doStop {x : String} {s : Stmt} {ρ ρ' : Env} (hs : Runs Γ (.stmt s) ρ (.done ρ'))
    (h : (ρ' x).toInt = 0) : Runs Γ (.stmt (.doWhile x s)) ρ (.done ρ')
  | doWhile {x : String} {s : Stmt} {ρ ρ' : Env} {r : Result}
    (hs : Runs Γ (.stmt s) ρ (.done ρ')) (h : (ρ' x).toInt ≠ 0)
    (hw : Runs Γ (.stmt (.doWhile x s)) ρ' r) : Runs Γ (.stmt (.doWhile x s)) ρ r
  | doLeaves {x : String} {s : Stmt} {ρ : Env} {r : Result} (hs : Runs Γ (.stmt s) ρ r)
    (hr : r.Leaves) : Runs Γ (.stmt (.doWhile x s)) ρ r
  | forLoop {up : Bool} {x : String} {initial last increment : Expr} {a z d : Scalar} {s : Stmt}
    {ρ : Env} {r : Result} (ha : initial.eval Γ ρ = some a) (hz : last.eval Γ ρ = some z)
    (hd : increment.eval Γ ρ = some d)
    (h : Runs Γ (.rounds up x z d s) (Function.update ρ x a) r) :
    Runs Γ (.stmt (.forLoop up x initial last increment s)) ρ r
  | roundsStop {up : Bool} {x : String} {z d : Scalar} {s : Stmt} {ρ : Env}
    (h : within up (ρ x) z = false) : Runs Γ (.rounds up x z d s) ρ (.done ρ)
  | rounds {up : Bool} {x : String} {z d : Scalar} {s : Stmt} {ρ ρ' : Env} {r : Result}
    (h : within up (ρ x) z = true) (hs : Runs Γ (.stmt s) ρ (.done ρ'))
    (hr : Runs Γ (.rounds up x z d s)
      (Function.update ρ' x (count up ((Expr.var x).ty Γ) (ρ' x) d)) r) :
    Runs Γ (.rounds up x z d s) ρ r
  | roundsLeave {up : Bool} {x : String} {z d : Scalar} {s : Stmt} {ρ : Env} {r : Result}
    (h : within up (ρ x) z = true) (hs : Runs Γ (.stmt s) ρ r) (hr : r.Leaves) :
    Runs Γ (.rounds up x z d s) ρ r

/-- The variables at the start: arguments in the order of the parameters, and zeros. -/
def Program.start (p : Program) (args : List Scalar) : Env := fun x =>
  (((p.params.map (·.1)).zip args).lookup x).getD (.zero ((p.locals.lookup x).getD .void))

/-! ## Building -/

/-- Build an expression at the end of a builder. -/
def Expr.build (b : BuilderId) : Expr → Build ValueId
  | const ty v => Emit.constInt b ty v
  | var x => Build.load b x
  | neg e => do
    let v ← e.build b
    Emit.negate b v
  | binary op l r => do
    let v ← l.build b
    let w ← r.build b
    Emit.binary b op v w
  | compare c l r => do
    let v ← l.build b
    let w ← r.build b
    Emit.compare b c v w
  | convert unsigned ty e => do
    let v ← e.build b
    if unsigned then Emit.unsignedConvertTo b ty v else Emit.convertTo b ty v

/-- Fill builders in, before or after they are used. -/
def inOrder (early : Bool) (fill use : Build Unit) : Build Unit := do
  if early then
    fill
    use
  else
    use
    fill

/-- Build a statement at the end of a builder. -/
def Stmt.build (early : Stmt → Bool) : Stmt → BuilderId → Build Unit
  | skip, _ => pure ()
  | assign x e, b => do
    let v ← e.build b
    Build.store b x v
  | seq s t, b => do
    s.build early b
    t.build early b
  | ret none, b => Emit.returnVoid b
  | ret (some e), b => do
    let v ← e.build b
    Emit.returnValue b v
  | ifThen c s, b => do
    let v ← c.build b
    let path ← Emit.orphan
    inOrder (early (ifThen c s)) (s.build early path) do
      let _ ← Emit.ifThen b (some path) v
  | ifElse c s, b => do
    let v ← c.build b
    let path ← Emit.orphan
    inOrder (early (ifElse c s)) (s.build early path) do
      let _ ← Emit.ifThenElse b none (some (some path)) v
  | ifBoth c s t, b => do
    let v ← c.build b
    let first ← Emit.orphan
    let second ← Emit.orphan
    inOrder (early (ifBoth c s t))
      (do
        s.build early first
        t.build early second)
      do
        let _ ← Emit.ifThenElse b (some (some first)) (some (some second)) v
  | whileDo x s, b => do
    let body ← Emit.orphan
    inOrder (early (whileDo x s)) (s.build early body) do
      let _ ← Build.whileDo b x (some body)
  | doWhile x s, b => do
    let body ← Emit.orphan
    inOrder (early (doWhile x s)) (s.build early body) do
      let _ ← Build.doWhile b x (some body)
  | forLoop up x initial last increment s, b => do
    let i ← initial.build b
    let z ← last.build b
    let d ← increment.build b
    let body ← Emit.orphan
    inOrder (early (forLoop up x initial last increment s)) (s.build early body) do
      let _ ← Build.forLoop b up x (some body) i z d

/-- Declare what a program declares and build its body. -/
def Program.build (early : Stmt → Bool) (p : Program) : Build Unit := do
  p.params.forM fun (x, ty) => modify (·.defineParameter x ty)
  p.locals.forM fun (x, ty) => modify (·.defineLocal x ty)
  modify (·.defineReturnType p.result)
  p.body.build early Method.root

end MethodGraph.Structured
