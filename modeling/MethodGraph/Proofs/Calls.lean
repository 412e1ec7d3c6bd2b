import MethodGraph.Method.Call
import MethodGraph.Method.Loop
import MethodGraph.Proofs.Records
/-!
  Everything that a caller can ask of a method before it is connected.

  A `Call` names one request with its arguments, and `Call.run` is what the library does for it.  A
  request may fail with an error; then the method is left as far as it was built and the caller
  goes on.  A fault ends everything.

  Main statement: a sequence of calls that meets no fault is a sequence of steps of building
  (`Method.after_builds`), so whatever steps of building preserve holds of every method that a
  caller can get to.
-/

namespace MethodGraph

open Emit Build Method List

variable {α β : Type} {l : License} {m m' : Method} {loose risky : List BlockId} {x : Build α}
  {name : String} {calls : List Call} {c : Call}

/-! ## Computations that can fail -/

namespace Build

/-- All that a computation does is to build, whether it fails or not. -/
def Lawful (l : License) (x : Build α) : Prop := Emit.Lawful l x.run

theorem lawful_lift {x : Emit α} (hx : Emit.Lawful l x) : Lawful l (liftM x : Build α) := by
  grind [lift_eq_ok, Lawful, Emit.Lawful]

theorem lawful_pure (a : α) : Lawful l (pure a : Build α) := by
  intro m r m' loose risky h
  obtain ⟨-, rfl⟩ := pure_eq_ok.1 h
  exact .refl

theorem lawful_bind {f : α → Build β} (hx : Lawful l x) (hf : ∀ a, Lawful l (f a)) :
    Lawful l (x >>= f) := by
  intro m r m' loose risky h
  rcases bind_eq_ok.1 h with ⟨a, m1, h1, h2⟩ | ⟨e, m1, h1, hr⟩
  · exact (hx _ _ _ loose risky h1).trans (hf a _ _ _ loose risky h2)
  · cases hr
    exact hx _ _ _ loose risky h1

theorem lawful_modify (hl : l.strays = true) {f : Method → Method}
    (hf : ∀ m, Method.Quiet m (f m)) (hs : l.records = true ∨ ∀ m, (f m).vmState = m.vmState) :
    Lawful l (modify f : Build PUnit) := lawful_lift (Emit.lawful_modify hl hf hs)

theorem Lawful.of_within (h : ∀ loose risky, Within (Emit.Grows l loose risky) x) : Lawful l x :=
  Emit.Lawful.of_within h

end Build

/-! ## Functions -/

theorem Method.quiet_request (m : Method) (name : String) : m.Quiet (m.request name) := by
  unfold request
  split
  · exact .refl m
  · dsimp only
    split
    · exact ⟨rfl, rfl, rfl, rfl, rfl, fun _ _ h => h, fun _ _ h => h⟩
    · split <;> exact ⟨rfl, rfl, rfl, rfl, rfl, fun _ _ h => h, fun _ _ h => h⟩

theorem Method.vmState_request (m : Method) (name : String) :
    (m.request name).vmState = m.vmState := by
  unfold request
  split
  · rfl
  · dsimp only
    split
    · rfl
    · split <;> rfl

namespace Build

/-- Looking for a function changes a method only by asking for it. -/
theorem resolve_state {r : Except BuildError Signature}
    (h : (resolve name).run.run m = .ok (r, m')) : m' = m.request name := by
  rcases bind_eq_ok.1 h with ⟨_, m1, h1, h⟩ | ⟨e, m1, h1, -⟩
  · cases h1
    rcases bind_eq_ok.1 h with ⟨_, _, h2, h⟩ | ⟨e, m2, h2, -⟩
    · cases h2
      cases hfind : (m.request name).functions.get? name with
      | none =>
        rw [hfind] at h
        exact (throw_eq_ok.1 h).2.symm
      | some s =>
        rw [hfind] at h
        exact (pure_eq_ok.1 h).2.symm
    · cases h2
  · cases h1

/-- A function is asked for, and all else is a line of code. -/
theorem call_within {R : Method → Method → Prop} [Accrues R] {b : BuilderId} [Admits b R]
    {args : List ValueId} {r : Except BuildError (Option ValueId)}
    (h : (call b name args).run.run m = .ok (r, m')) : R (m.request name) m' := by
  have hcall : ∀ s : Signature, Within R (do
      if args.length ≠ s.params.length then
        throwThe Fault (.argumentCount name s.params.length args.length)
      if s.returnType = .void then
        emit b { opcode := .call name, operands := args }
        return none
      else
        let v ← emitValue b (.call name) args s.returnType
        return some v : Build (Option ValueId)) := by
    intro s
    have hvoid : Within R (do
        emit b { opcode := .call name, operands := args }
        return none : Build (Option ValueId)) :=
      within_bind (within_lift (within_emit ⟨rfl, rfl, rfl⟩ fun _ => trivial)) fun _ =>
        within_pure _
    have hvalue : Within R (do
        let v ← emitValue b (.call name) args s.returnType
        return some v : Build (Option ValueId)) :=
      within_bind (within_lift (within_emitValue rfl rfl fun _ _ _ => trivial)) fun _ =>
        within_pure _
    have hboth := within_ite (c := s.returnType = .void) hvoid hvalue
    exact within_ite (within_bind (within_fault _) fun _ => hboth) hboth
  rcases bind_eq_ok.1 h with ⟨s, m1, hs, h⟩ | ⟨e, m1, hs, hr⟩
  · rw [resolve_state hs] at h
    exact hcall s _ r m' h
  · cases hr
    rw [resolve_state hs]
    exact Accrues.refl _

theorem lawful_call (hl : l.strays = true) (b : BuilderId) (name : String) (args : List ValueId) :
    Lawful l (call b name args) := by
  intro m r m' loose risky h
  have hcall : Emit.Grows l loose risky (m.request name) m' := call_within h
  exact hcall.head (.quiet (m.quiet_request name) (.inr (m.vmState_request name)) (.inl hl))

/-! ## Loops -/

/-- A loop is noted first, and all else is to build. -/
def Loops (x : Build α) : Prop :=
  ∃ rest : Build α, x = (setMayLoop >>= fun _ => rest) ∧ ∀ l, Lawful l rest

theorem Loops.lawful (hl : l.strays = true) (hx : Loops x) : Lawful l x := by
  obtain ⟨rest, rfl, hrest⟩ := hx
  exact lawful_bind (lawful_lift (lawful_markLoop hl)) fun _ => hrest l

theorem loops_forLoop (b : BuilderId) (up : Bool) (index : String) (body : Option BuilderId)
    (initial last increment : ValueId) :
    Loops (forLoop b up index body initial last increment) := by
  refine ⟨_, rfl, fun l => lawful_bind (lawful_lift (lawful_prepare body)) fun body =>
    lawful_bind (.of_within fun _ _ => within_store index initial) fun _ =>
    lawful_bind (lawful_lift lawful_orphan) fun round =>
    lawful_bind (.of_within fun _ _ => within_load (b := b) index) fun _ =>
    lawful_bind (.of_within fun _ _ => within_lift (within_compare (b := b) _ _ _)) fun _ =>
    lawful_bind (lawful_lift (lawful_ifThen b _ _)) fun _ =>
    lawful_bind (lawful_lift lawful_orphan) fun again => ?_⟩
  refine lawful_bind (lawful_lift (lawful_append round body)) fun _ =>
    lawful_bind (lawful_lift (lawful_append round again)) fun _ =>
    lawful_bind (.of_within fun _ _ => within_load (b := again) index) fun _ =>
    lawful_bind (.of_within fun _ _ => within_lift (within_binary (b := again) _ _ _)) fun _ =>
    lawful_bind (.of_within fun _ _ => within_store (b := again) index _) fun _ =>
    lawful_bind (.of_within fun _ _ => within_load (b := again) index) fun _ =>
    lawful_bind (lawful_lift (lawful_ifCmp again _ _ _ _)) fun _ => ?_
  exact lawful_bind (lawful_lift lawful_orphan) fun leave =>
    lawful_bind (lawful_lift (lawful_append b leave)) fun _ => lawful_pure _

theorem loops_whileDo (b : BuilderId) (condition : String) (body : Option BuilderId) :
    Loops (whileDo b condition body) := by
  refine ⟨_, rfl, fun l => lawful_bind (lawful_lift (lawful_prepare body)) fun body =>
    lawful_bind (.of_within fun _ _ => within_localSymbol b condition .int32) fun s =>
    lawful_bind (lawful_lift lawful_orphan) fun leave =>
    lawful_bind (lawful_lift lawful_orphan) fun again => ?_⟩
  exact lawful_bind (lawful_lift (lawful_append b again)) fun _ =>
    lawful_bind (.of_within fun _ _ => within_lift (within_loadSymbol (b := again) s)) fun v =>
    lawful_bind (lawful_lift (lawful_ifCmpZero again .eq (some leave) v)) fun _ =>
    lawful_bind (lawful_lift (lawful_append b body)) fun _ =>
    lawful_bind (lawful_lift (lawful_gotoBuilder b again)) fun _ =>
    lawful_bind (lawful_lift (lawful_append b leave)) fun _ => lawful_pure _

theorem loops_doWhile (b : BuilderId) (condition : String) (body : Option BuilderId) :
    Loops (doWhile b condition body) := by
  refine ⟨_, rfl, fun l => lawful_bind (lawful_lift (lawful_prepare body)) fun body =>
    lawful_bind (.of_within fun _ _ => within_localSymbol b condition .int32) fun s =>
    lawful_bind (lawful_lift (lawful_append b body)) fun _ =>
    lawful_bind (lawful_lift lawful_orphan) fun again => ?_⟩
  exact lawful_bind (lawful_lift (lawful_append b again)) fun _ =>
    lawful_bind (.of_within fun _ _ => within_lift (within_loadSymbol (b := again) s)) fun v =>
    lawful_bind (lawful_lift (lawful_ifCmpZero again .ne (some body) v)) fun _ =>
    lawful_bind (lawful_lift lawful_orphan) fun leave =>
    lawful_bind (lawful_lift (lawful_append b leave)) fun _ => lawful_pure _

end Build

/-! ## Calls -/

/-- A request of a caller.  The builder that code is added to comes first; a builder that is asked
    for with `none` is made. -/
inductive Call where
  -- definitions
  | defineName (name : String)
  | defineFile (file : String)
  | defineLine (line : String)
  | defineParameter (name : String) (ty : Ty)
  | defineLocal (name : String) (ty : Ty)
  | defineReturnType (ty : Ty)
  | defineFunction (s : Signature)
  | allLocalsDefined
  | setResolver (resolver : String → Option Signature)
  | setTypes (types : TypeTable)
  | setVmState (s : VmState)
  -- builders
  | orphan
  | orphanBytecode (index : Int) (name : Option String)
  | bytecodeBuilder (index : Int)
  | append (b child : BuilderId)
  | markCold (b : BuilderId)
  -- values and locals
  | constInt (b : BuilderId) (ty : Ty) (v : Int64)
  | constFloat (b : BuilderId) (x : Binary64)
  | constDouble (b : BuilderId) (x : Binary64)
  | zero (b : BuilderId) (ty : Ty)
  | load (b : BuilderId) (name : String)
  | store (b : BuilderId) (name : String) (v : ValueId)
  | storeOver (b : BuilderId) (dest v : ValueId)
  | binary (b : BuilderId) (op : Arith) (v w : ValueId)
  | negate (b : BuilderId) (v : ValueId)
  | compare (b : BuilderId) (c : Cmp) (v w : ValueId)
  | convertTo (b : BuilderId) (ty : Ty) (v : ValueId)
  | unsignedConvertTo (b : BuilderId) (ty : Ty) (v : ValueId)
  -- memory and functions
  | loadAt (b : BuilderId) (ty : Ty) (address : ValueId)
  | storeAt (b : BuilderId) (address v : ValueId)
  | indexAt (b : BuilderId) (element : Ty) (base index : ValueId)
  | fieldAddress (b : BuilderId) (aggregate part : String) (object : ValueId)
  | loadIndirect (b : BuilderId) (aggregate part : String) (object : ValueId)
  | storeIndirect (b : BuilderId) (aggregate part : String) (object v : ValueId)
  | localArray (b : BuilderId) (count : Nat) (element : Ty)
  | localStruct (b : BuilderId) (ty : TypeId)
  | atomicAdd (b : BuilderId) (address v : ValueId)
  | function (b : BuilderId) (name : String) (args : List ValueId)
  -- transfers and paths
  | gotoBuilder (b target : BuilderId)
  | goto (b : BuilderId) (target : Option BuilderId)
  | returnVoid (b : BuilderId)
  | returnValue (b : BuilderId) (v : ValueId)
  | ifCmp (b : BuilderId) (c : Cmp) (target : Option BuilderId) (v w : ValueId)
  | ifCmpZero (b : BuilderId) (c : Cmp) (target : Option BuilderId) (v : ValueId)
  | ifThen (b : BuilderId) (path : Option BuilderId) (condition : ValueId)
  | ifThenElse (b : BuilderId) (thenPath elsePath : Option (Option BuilderId))
    (condition : ValueId)
  | ifAnd (b : BuilderId) (allTrue anyFalse : Option BuilderId) (terms : List (BuilderId × ValueId))
  | ifOr (b : BuilderId) (anyTrue allFalse : Option BuilderId) (terms : List (BuilderId × ValueId))
  | forLoop (b : BuilderId) (up : Bool) (index : String) (body : Option BuilderId)
    (initial last increment : ValueId)
  | whileDo (b : BuilderId) (condition : String) (body : Option BuilderId)
  | doWhile (b : BuilderId) (condition : String) (body : Option BuilderId)
  | switch (b : BuilderId) (selector : ValueId) (default : Option BuilderId)
    (cases : List SwitchCase)
  -- handlers and transactions
  | handler (b : BuilderId) (risky : BlockId) (path : Option BuilderId)
  | checked (b : BuilderId) (op : Arith) (path : Option BuilderId) (v w : ValueId)
  | transaction (b : BuilderId) (persistent transient body : Option BuilderId)
  | abort (b : BuilderId)
  -- bytecode
  | appendBytecode (b : BuilderId)
  | nextBytecode
  | addSuccessor (b target : BuilderId)
  | addFallThrough (b target : BuilderId)
  | bytecodeGoto (b target : BuilderId)
  | bytecodeIfCmp (b : BuilderId) (c : Cmp) (target : BuilderId) (v w : ValueId)
  | bytecodeIfCmpZero (b : BuilderId) (c : Cmp) (target : BuilderId) (v : ValueId)
  | replaceState (b : BuilderId) (s : VmState)
  | commitState (b : BuilderId)
  | reloadState (b : BuilderId)
  | stackPush (b : BuilderId) (v : ValueId)
  | stackPop (b : BuilderId)
  | stackTop (b : BuilderId)
  | stackPick (b : BuilderId) (n : Nat)
  | stackDrop (b : BuilderId) (n : Nat)
  | stackDup (b : BuilderId)
  -- states held by the caller
  | register (b : BuilderId) (name : String) (ty : Ty) (step : Int64) (address : ValueId)
  | fieldRegister (b : BuilderId) (aggregate object part name : String)
  | operandStack (b : BuilderId) (pointer : Register) (element : Ty) (growsUp : Bool) (offset : Int)
  | operandArray (b : BuilderId) (count : Nat) (element : Ty) (base : String)
  | commit (b : BuilderId) (s : VmState)
  | reload (b : BuilderId) (s : VmState)
  | dealias (b : BuilderId) (s : VmState)
  | mergeInto (b : BuilderId) (s target : VmState)
  | loadRegister (b : BuilderId) (s : VmState)
  | storeRegister (b : BuilderId) (s : VmState) (v : ValueId)
  | adjustRegister (b : BuilderId) (s : VmState) (amount : Int64)

namespace Call

/-- What is done for a call. -/
def run : Call → Build Unit
  | defineName name => modify (·.defineName name)
  | defineFile file => modify (·.defineFile file)
  | defineLine line => modify (·.defineLine line)
  | defineParameter name ty => modify (·.defineParameter name ty)
  | defineLocal name ty => modify (·.defineLocal name ty)
  | defineReturnType ty => modify (·.defineReturnType ty)
  | defineFunction s => modify (·.defineFunction s)
  | allLocalsDefined => modify (·.allLocalsDefined)
  | setResolver resolver => modify (·.setResolver resolver)
  | setTypes types => modify ({ · with types })
  | setVmState s => modify (·.setVmState s)
  | orphan => discard Emit.orphan
  | orphanBytecode index name => discard (Emit.orphanBytecode index name)
  | bytecodeBuilder index => discard (Emit.bytecodeBuilder index)
  | append b child => Emit.append b child
  | markCold b => Emit.markCold b
  | constInt b ty v => discard (Emit.constInt b ty v)
  | constFloat b x => discard (Emit.constFloat b x)
  | constDouble b x => discard (Emit.constDouble b x)
  | zero b ty => discard (Emit.zero b ty)
  | load b name => discard (Build.load b name)
  | store b name v => Build.store b name v
  | storeOver b dest v => Emit.storeOver b dest v
  | binary b op v w => discard (Emit.binary b op v w)
  | negate b v => discard (Emit.negate b v)
  | compare b c v w => discard (Emit.compare b c v w)
  | convertTo b ty v => discard (Emit.convertTo b ty v)
  | unsignedConvertTo b ty v => discard (Emit.unsignedConvertTo b ty v)
  | loadAt b ty address => discard (Emit.loadAt b ty address)
  | storeAt b address v => Emit.storeAt b address v
  | indexAt b element base index => discard (Emit.indexAt b element base index)
  | fieldAddress b aggregate part object => discard (Build.fieldAddress b aggregate part object)
  | loadIndirect b aggregate part object => discard (Build.loadIndirect b aggregate part object)
  | storeIndirect b aggregate part object v => Build.storeIndirect b aggregate part object v
  | localArray b count element => discard (Emit.localArray b count element)
  | localStruct b ty => discard (Emit.localStruct b ty)
  | atomicAdd b address v => discard (Build.atomicAdd b address v)
  | function b name args => discard (Build.call b name args)
  | gotoBuilder b target => Emit.gotoBuilder b target
  | goto b target => discard (Emit.goto b target)
  | returnVoid b => Emit.returnVoid b
  | returnValue b v => Emit.returnValue b v
  | ifCmp b c target v w => discard (Emit.ifCmp b c target v w)
  | ifCmpZero b c target v => discard (Emit.ifCmpZero b c target v)
  | ifThen b path condition => discard (Emit.ifThen b path condition)
  | ifThenElse b thenPath elsePath condition =>
    discard (Emit.ifThenElse b thenPath elsePath condition)
  | ifAnd b allTrue anyFalse terms => discard (Emit.ifAnd b allTrue anyFalse terms)
  | ifOr b anyTrue allFalse terms => discard (Emit.ifOr b anyTrue allFalse terms)
  | forLoop b up index body initial last increment =>
    discard (Build.forLoop b up index body initial last increment)
  | whileDo b condition body => discard (Build.whileDo b condition body)
  | doWhile b condition body => discard (Build.doWhile b condition body)
  | switch b selector default cases => discard (Emit.switch b selector default cases)
  | handler b risky path => discard (Emit.appendHandler b risky path)
  | checked b op path v w => discard (Emit.checked b op path v w)
  | transaction b persistent transient body =>
    discard (Emit.transaction b persistent transient body)
  | abort b => Emit.abort b
  | appendBytecode b => Emit.appendBytecode b
  | nextBytecode => discard Emit.nextBytecode
  | addSuccessor b target => discard (Emit.addSuccessor b target)
  | addFallThrough b target => discard (Emit.addFallThrough b target)
  | bytecodeGoto b target => discard (Emit.bytecodeGoto b target)
  | bytecodeIfCmp b c target v w => discard (Emit.bytecodeIfCmp b c target v w)
  | bytecodeIfCmpZero b c target v => discard (Emit.bytecodeIfCmpZero b c target v)
  | replaceState b s => discard (Emit.replaceState b s)
  | commitState b => Emit.commitState b
  | reloadState b => Emit.reloadState b
  | stackPush b v => Emit.stackPush b v
  | stackPop b => discard (Emit.stackPop b)
  | stackTop b => discard (Emit.stackTop b)
  | stackPick b n => discard (Emit.stackPick b n)
  | stackDrop b n => Emit.stackDrop b n
  | stackDup b => Emit.stackDup b
  | register b name ty step address => discard (Register.create b name ty step address)
  | fieldRegister b aggregate object part name =>
    discard (FieldRegister.create b aggregate object part name)
  | operandStack b pointer element growsUp offset =>
    discard (OperandStack.create b pointer element growsUp offset)
  | operandArray b count element base => discard (OperandArray.create b count element base)
  | commit b s => s.commit b
  | reload b s => discard (s.reload b)
  | dealias b s => discard (s.dealias b)
  | mergeInto b s target => s.mergeInto b target
  | loadRegister b s => discard (s.loadRegister b)
  | storeRegister b s v => discard (s.storeRegister b v)
  | adjustRegister b s amount => discard (s.adjustRegister b amount)

/-- The state that the bytecode starts with, or a state in the record of a builder, is replaced. -/
def rewrites : Call → Bool
  | setVmState _ | appendBytecode _ | addSuccessor .. | addFallThrough .. | bytecodeGoto ..
  | bytecodeIfCmp .. | bytecodeIfCmpZero .. | replaceState .. | reloadState _ | stackPush ..
  | stackPop _ | stackDrop .. | stackDup _ => true
  | _ => false

/-- The builder starts from a new state, whatever it has. -/
def restarts : Call → Bool
  | appendBytecode _ => true
  | _ => false

/-- A block of the caller's choice gets a handler. -/
def forgets : Call → Bool
  | handler .. => true
  | _ => false

/-- More is changed than what has been built: a definition, what is known of functions, the mark for
    loops or the worklist. -/
def strays : Call → Bool
  | defineName _ | defineFile _ | defineLine _ | defineParameter .. | defineLocal ..
  | defineReturnType _ | defineFunction _ | allLocalsDefined | setResolver _ | setTypes _
  | setVmState _ | function .. | forLoop .. | whileDo .. | doWhile .. | appendBytecode _
  | nextBytecode | addSuccessor .. | addFallThrough .. | bytecodeGoto .. | bytecodeIfCmp ..
  | bytecodeIfCmpZero .. => true
  | _ => false

/-- The method after a call, whether the call fails or not. -/
def apply (c : Call) (m : Method) : Except Fault Method := do
  let (_, m) ← c.run.run.run m
  return m

end Call

/-- The method after several calls. -/
def Method.after (m : Method) : List Call → Except Fault Method
  | [] => .ok m
  | c :: cs => do (← c.apply m).after cs

theorem Method.after_append {later : List Call} (h : m.after calls = .ok m') :
    m.after (calls ++ later) = m'.after later := by
  induction calls generalizing m with
  | nil =>
    cases h
    rfl
  | cons c calls ih =>
    rw [after] at h
    obtain ⟨m1, hc, h⟩ := ok_of_bind h
    rw [cons_append, after, hc, ← ih h]
    rfl

/-- A method that a caller can get to. -/
def Method.Reachable (m : Method) : Prop :=
  ∃ name config calls, (Method.new name config).after calls = .ok m

/-! ## Calls for a line of code -/

namespace Call

/-- The builder into which a call emits a line of code.  A call of a function is not counted here,
    since the function may have to be asked for. -/
def line? : Call → Option BuilderId
  | constInt b .. | constFloat b _ | constDouble b _ | zero b _ | load b _ | store b ..
  | storeOver b .. | binary b .. | negate b _ | compare b .. | convertTo b ..
  | unsignedConvertTo b .. | loadAt b .. | storeAt b .. | indexAt b .. | fieldAddress b ..
  | loadIndirect b .. | storeIndirect b .. | localArray b .. | localStruct b _ | atomicAdd b ..
  | replaceState b _ | commitState b | reloadState b | stackPush b _ | stackPop b | stackTop b
  | stackPick b _ | stackDrop b _ | stackDup b | register b .. | fieldRegister b ..
  | operandStack b .. | operandArray b .. | commit b _ | reload b _ | dealias b _ | mergeInto b ..
  | loadRegister b _ | storeRegister b .. | adjustRegister b .. => some b
  | _ => none

theorem within_discard [Accrues R] (hx : Build.Within R x) :
    Build.Within R (discard x) := Build.within_bind hx fun _ => Build.within_pure _

theorem within_emit [Accrues R] {x : Emit α} (hx : Emit.Within R x) :
    Build.Within R (discard (liftM x : Build α)) := within_discard (Build.within_lift hx)

/-- A line of code does what all of its steps do. -/
theorem within_line [Accrues R] [Admits b R] (hc : c.line? = some b)
    (hr : c.rewrites = true → Rewrites b R) : Build.Within R c.run := by
  cases c with
  | constInt b ty v =>
    cases hc
    exact within_emit (within_constInt ty v)
  | constFloat b x =>
    cases hc
    exact within_emit (within_constFloat x)
  | constDouble b x =>
    cases hc
    exact within_emit (within_constDouble x)
  | zero b ty =>
    cases hc
    exact within_emit (within_zero ty)
  | load b name =>
    cases hc
    exact within_discard (within_load name)
  | store b name v =>
    cases hc
    exact within_store name v
  | storeOver b dest v =>
    cases hc
    exact within_lift (within_storeOver dest v)
  | binary b op v w =>
    cases hc
    exact within_emit (within_binary op v w)
  | negate b v =>
    cases hc
    exact within_emit (within_negate v)
  | compare b cmp v w =>
    cases hc
    exact within_emit (within_compare cmp v w)
  | convertTo b ty v =>
    cases hc
    exact within_emit (within_convertTo ty v)
  | unsignedConvertTo b ty v =>
    cases hc
    exact within_emit (within_unsignedConvertTo ty v)
  | loadAt b ty address =>
    cases hc
    exact within_emit (within_loadAt ty address)
  | storeAt b address v =>
    cases hc
    exact within_lift (within_storeAt address v)
  | indexAt b element base index =>
    cases hc
    exact within_emit (within_indexAt element base index)
  | fieldAddress b aggregate part object =>
    cases hc
    exact within_discard (within_fieldAddress aggregate part object)
  | loadIndirect b aggregate part object =>
    cases hc
    exact within_discard (within_loadIndirect aggregate part object)
  | storeIndirect b aggregate part object v =>
    cases hc
    exact within_storeIndirect aggregate part object v
  | localArray b count element =>
    cases hc
    exact within_emit (within_localArray count element)
  | localStruct b ty =>
    cases hc
    exact within_emit (within_localStruct ty)
  | atomicAdd b address v =>
    cases hc
    exact within_discard (within_atomicAdd address v)
  | replaceState b s =>
    cases hc
    have := hr rfl
    exact within_emit (within_replaceState s)
  | commitState b =>
    cases hc
    exact within_lift within_commitState
  | reloadState b =>
    cases hc
    have := hr rfl
    exact within_lift within_reloadState
  | stackPush b v =>
    cases hc
    have := hr rfl
    exact within_lift (within_stackPush v)
  | stackPop b =>
    cases hc
    have := hr rfl
    exact within_emit within_stackPop
  | stackTop b =>
    cases hc
    exact within_emit within_stackTop
  | stackPick b n =>
    cases hc
    exact within_emit (within_stackPick n)
  | stackDrop b n =>
    cases hc
    have := hr rfl
    exact within_lift (within_stackDrop n)
  | stackDup b =>
    cases hc
    have := hr rfl
    exact within_lift within_stackDup
  | register b name ty step address =>
    cases hc
    exact within_discard (within_register name ty step address)
  | fieldRegister b aggregate object part name =>
    cases hc
    exact within_discard (within_fieldRegister aggregate object part name)
  | operandStack b pointer element growsUp offset =>
    cases hc
    exact within_discard (within_operandStack pointer element growsUp offset)
  | operandArray b count element base =>
    cases hc
    exact within_discard (within_operandArray count element base)
  | commit b s =>
    cases hc
    exact within_lift s.within_commit
  | reload b s =>
    cases hc
    exact within_emit s.within_reload
  | dealias b s =>
    cases hc
    exact within_emit s.within_dealias
  | mergeInto b s target =>
    cases hc
    exact within_lift (s.within_mergeInto target)
  | loadRegister b s =>
    cases hc
    exact within_emit s.within_loadRegister
  | storeRegister b s v =>
    cases hc
    exact within_emit (s.within_storeRegister v)
  | adjustRegister b s amount =>
    cases hc
    exact within_emit (s.within_adjustRegister amount)
  | _ => cases hc

end Call

/-! ## Calls build -/

namespace Call

theorem lawful_discard (hx : Build.Lawful l x) : Build.Lawful l (discard x) :=
  Build.lawful_bind hx fun _ => Build.lawful_pure _

theorem lawful_emit {x : Emit α} (hx : Emit.Lawful l x) :
    Build.Lawful l (discard (liftM x : Build α)) := lawful_discard (Build.lawful_lift hx)

/-- Every call builds; a few need a license. -/
theorem lawful_of (c : Call) (hl : c.strays = true → l.strays = true)
    (hr : c.rewrites = true → l.records = true) (hs : c.restarts = true → l.restarts = true)
    (hf : c.forgets = true → l.forgets = true) : Build.Lawful l c.run := by
  have same : l.strays = true → ∀ {f : Method → Method}, (∀ m, (f m).builders = m.builders ∧
      (f m).graph.blocks = m.graph.blocks ∧ (f m).graph.layout = m.graph.layout ∧
      (f m).connected = m.connected ∧ (f m).config = m.config ∧
      (f m).graph.values = m.graph.values ∧ (f m).graph.symbols = m.graph.symbols) →
      (l.records = true ∨ ∀ m, (f m).vmState = m.vmState) →
      Build.Lawful l (modify f : Build PUnit) := by
    intro hl f h hstate
    refine lawful_modify hl (fun m => ?_) hstate
    obtain ⟨h1, h2, h3, h4, h5, h6, h7⟩ := h m
    exact ⟨h1, h2, h3, h4, h5, fun _ _ h => h6 ▸ h, fun _ _ h => h7 ▸ h⟩
  cases hline : c.line? with
  | some b =>
    exact .of_within fun _ _ => within_line hline fun hc => rewrites_grows (hr hc) b
  | none =>
    cases c with
    | defineName | defineFile | defineLine | defineReturnType | defineFunction | allLocalsDefined
    | setResolver | setTypes =>
      exact same (hl rfl) (fun m => ⟨rfl, rfl, rfl, rfl, rfl, rfl, rfl⟩) (.inr fun _ => rfl)
    | setVmState =>
      exact same (hl rfl) (fun m => ⟨rfl, rfl, rfl, rfl, rfl, rfl, rfl⟩) (.inl (hr rfl))
    | defineParameter name ty | defineLocal name ty =>
      exact lawful_modify (hl rfl) (fun m => m.quiet_define name ty _) (.inr fun _ => rfl)
    | orphan => exact lawful_emit lawful_orphan
    | orphanBytecode index name => exact lawful_emit (lawful_orphanBytecode index name)
    | bytecodeBuilder index => exact lawful_emit (lawful_bytecodeBuilder index)
    | append b child => exact lawful_lift (lawful_append b child)
    | markCold b => exact lawful_lift (lawful_markCold b)
    | function b name args => exact lawful_discard (lawful_call (hl rfl) b name args)
    | gotoBuilder b target => exact lawful_lift (lawful_gotoBuilder b target)
    | goto b target => exact lawful_emit (lawful_goto b target)
    | returnVoid b => exact lawful_lift (lawful_returnVoid b)
    | returnValue b v => exact lawful_lift (lawful_returnValue b v)
    | ifCmp b c target v w => exact lawful_emit (lawful_ifCmp b c target v w)
    | ifCmpZero b c target v => exact lawful_emit (lawful_ifCmpZero b c target v)
    | ifThen b path condition => exact lawful_emit (lawful_ifThen b path condition)
    | ifThenElse b thenPath elsePath condition =>
      exact lawful_emit (lawful_ifThenElse b thenPath elsePath condition)
    | ifAnd b allTrue anyFalse terms =>
      exact lawful_emit (lawful_ifAnd b allTrue anyFalse terms)
    | ifOr b anyTrue allFalse terms => exact lawful_emit (lawful_ifOr b anyTrue allFalse terms)
    | forLoop b up index body initial last increment =>
      exact lawful_discard ((loops_forLoop b up index body initial last increment).lawful (hl rfl))
    | whileDo b condition body =>
      exact lawful_discard ((loops_whileDo b condition body).lawful (hl rfl))
    | doWhile b condition body =>
      exact lawful_discard ((loops_doWhile b condition body).lawful (hl rfl))
    | switch b selector default cases =>
      exact lawful_emit (lawful_switch b selector default cases)
    | handler b risky path => exact lawful_emit (lawful_appendHandler (hf rfl) b risky path)
    | checked b op path v w => exact lawful_emit (lawful_checked b op path v w)
    | transaction b persistent transient body =>
      exact lawful_emit (lawful_transaction b persistent transient body)
    | abort b => exact lawful_lift (lawful_abort b)
    | appendBytecode b =>
      exact lawful_lift (lawful_appendBytecode (hr rfl) (hs rfl) (hl rfl) b)
    | nextBytecode => exact lawful_emit (lawful_nextBytecode (hl rfl))
    | addSuccessor b target => exact lawful_emit (lawful_addSuccessor (hr rfl) (hl rfl) b target)
    | addFallThrough b target =>
      exact lawful_emit (lawful_addFallThrough (hr rfl) (hl rfl) b target)
    | bytecodeGoto b target => exact lawful_emit (lawful_bytecodeGoto (hr rfl) (hl rfl) b target)
    | bytecodeIfCmp b c target v w =>
      exact lawful_emit (lawful_bytecodeIfCmp (hr rfl) (hl rfl) b c target v w)
    | bytecodeIfCmpZero b c target v =>
      exact lawful_emit (lawful_bytecodeIfCmpZero (hr rfl) (hl rfl) b c target v)
    | _ => cases hline

theorem lawful (c : Call) (hl : l.strays = true) (hr : l.records = true)
    (hs : c.restarts = true → l.restarts = true) (hf : c.forgets = true → l.forgets = true) :
    Build.Lawful l c.run := c.lawful_of (fun _ => hl) (fun _ => hr) hs hf

theorem apply_eq_ok : c.apply m = .ok m' ↔ ∃ r, c.run.run.run m = .ok (r, m') := by
  unfold apply
  cases c.run.run.run m with
  | error e => simp [bind, Except.bind]
  | ok p =>
    obtain ⟨r, n⟩ := p
    show Except.ok n = .ok m' ↔ _
    simp

end Call

/-- Calls that meet no fault are steps of building, which leave nothing open. -/
theorem Method.after_builds (h : m.after calls = .ok m') (hl : l.strays = true)
    (hr : l.records = true) (hs : ∀ c ∈ calls, c.restarts = true → l.restarts = true)
    (hf : ∀ c ∈ calls, c.forgets = true → l.forgets = true) :
    Builds l ⟨m, [], []⟩ ⟨m', [], []⟩ := by
  induction calls generalizing m with
  | nil =>
    cases h
    exact .refl
  | cons c calls ih =>
    rw [after] at h
    obtain ⟨m1, hc, h⟩ := ok_of_bind h
    obtain ⟨r, hrun⟩ := Call.apply_eq_ok.1 hc
    have hfirst : Builds l ⟨m, [], []⟩ ⟨m1, [], []⟩ :=
      c.lawful hl hr (hs c mem_cons_self) (hf c mem_cons_self) _ _ _ [] [] hrun
    refine hfirst.trans (ih h ?_ ?_)
    · exact fun c' hc' => hs c' (mem_cons_of_mem _ hc')
    · exact fun c' hc' => hf c' (mem_cons_of_mem _ hc')

end MethodGraph
