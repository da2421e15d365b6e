import FlowTypes.Proofs.Heredity.Activities

/-! Traits of a walk as a whole. A walk has a trait if the walk one level further down has it, and if it
is passed on at the few places where functions are made, changed and applied. -/
namespace FlowTypes

open Analysis

/-- A trait that the calls and iterations one level further down have. -/
structure Trait.Calling (T : Trait) : Prop extends T.Composed where
  element : T.holds [] fun v => v.element iterable span
  call : T.holds [] fun v => v.call callee args span

/-- A trait that the walk one level further down has where statements are in the scope. -/
structure Trait.Below (T : Trait) (scope : ScopeId) : Prop extends T.Calling where
  ask : ∀ {α : Type} {answer : FileSystem → α}, T.holds [] fun v => v.ask p answer
  noted : T.holds [.noted node] fun _ => recordType node type
  undefine : T.holds [] fun _ => modifyScopes (·.undefine scope name)
  expr : ∀ {scope : ScopeId}, T.holds [.value e] fun v => v.expr scope e
  block : ∀ {body : List Stmt}, T.holds (body.map .stmt) fun v => v.block scope body
  assign : ∀ {scope : ScopeId}, T.holds [.target target] fun v => v.assign scope target value
  load : T.holds [] fun v => v.load path

/-- A trait that is also passed on where functions are made and applied, where they yield, and where the
body of a class is walked. -/
structure Trait.Hereditary (T : Trait) (scope : ScopeId) : Prop extends T.Below scope where
  yieldValue : T.holds [] fun _ => Analysis.yieldValue value
  apply : T.holds [] fun v => v.apply fn args span
  function : T.holds [.stmt (.function d)] fun v => v.function scope d
  lambda : ∀ {scope : ScopeId} {parameters : List (Parameter Expr)},
    T.holds (.met (.lambda node parameters body) :: (parameters.flatMap (·.exprs)).map .value)
      fun v => v.lambda scope node parameters body
  classDef : T.holds [.stmt (.classDef d)] fun v => v.classDef scope d

namespace Trait.Calling

variable {T : Trait} (w : T.Calling)

include w

/-! ### Methods and iteration -/

theorem callMethod : T.holds [] fun v => v.callMethod object name args span := by
  refine w.bind w.attribute? fun found => ?_
  split
  · exact w.pure
  · exact w.bind w.call fun _ => w.pure

theorem resultOf : T.holds [] fun v => v.resultOf object name args span :=
  w.bind w.callMethod fun _ => w.pure

theorem iterate : T.holds [] fun v => v.iterate object span := by
  refine w.bind w.callMethod fun found => ?_
  refine w.bind w.typeOf fun type => ?_
  split
  · exact w.element
  · refine w.bind w.callMethod fun next => ?_
    split
    · exact w.pure
    · exact w.resultOf

theorem elementOf {id : TypeId} : T.holds [] fun v => v.elementOf span id := by
  refine w.bind w.typeOf fun type => ?_
  split
  · exact w.pure
  · exact w.unionAll
  · exact w.pure
  · exact w.pure
  · exact w.iterate
  · exact w.pure

theorem elementStep : T.holds [] fun v => v.elementStep iterable span :=
  w.bind w.alternatives fun _ => idle (w.unionOver fun _ _ => w.elementOf)

/-! ### Known functions -/

theorem elementOfArgument : T.holds [] fun v => v.elementOfArgument argument span := by
  cases argument with
  | none => exact w.pure
  | some value => exact w.element

theorem dictOf : T.holds [] fun v => v.dictOf argument keywords span := by
  unfold Walker.dictOf
  split
  · refine w.bind w.typeOf fun type => ?_
    split
    · exact w.pure
    · refine w.bind w.element fun element => ?_
      refine w.bind w.typeOf fun type => ?_
      split <;> exact w.newDict
  · split
    · exact w.newDict
    · exact w.bind w.unionAll fun _ => w.newDict

theorem tupleFrom : T.holds [] fun v => v.tupleFrom argument span := by
  unfold Walker.tupleFrom
  split
  · refine w.bind w.typeOf fun type => ?_
    split
    · exact w.pure
    · exact w.bind w.element fun _ => w.newTuple
  · exact w.newTuple

theorem native : T.holds [] fun v => v.native op receiver args span := by
  have element : ∀ argument, T.holds [] fun v => v.elementOfArgument argument span :=
    fun argument => w.elementOfArgument
  cases op with
  | returns | firstArgument | round => exact w.pure
  | elementOfFirst => exact element _
  | listOfFirst => exact w.bind (element _) fun _ => w.newListOf
  | tupleOfFirst => exact w.tupleFrom
  | dictOfFirst => exact w.dictOf
  | minMax =>
    unfold Walker.native
    dsimp only
    split
    · exact element _
    · exact w.unionAll
  | sum => exact w.bind (element _) fun _ => w.pure
  | range | strSplit => exact w.newListOf
  | enumerate =>
    refine w.bind (element _) fun value => ?_
    exact w.bind w.newTuple fun _ => w.newListOf
  | zip =>
    refine w.bind (idle (w.mapM fun value _ => w.element)) fun values => ?_
    exact w.bind w.newTuple fun _ => w.newListOf
  | getAttr =>
    unfold Walker.native
    dsimp only
    split
    · exact w.union
    · exact w.pure
  | listAppend | listInsert => exact w.bind w.store fun _ => w.pure
  | listExtend =>
    unfold Walker.native
    dsimp only
    split
    · refine w.bind w.element fun value => ?_
      exact w.bind w.widenList fun _ => w.pure
    · exact w.pure
  | listPop => exact w.elementsOf
  | dictKeys | dictValues => exact w.bind w.entryOf fun _ => w.newListOf
  | dictItems =>
    refine w.bind w.entryOf fun entry => ?_
    exact w.bind w.newTuple fun _ => w.newListOf
  | dictGet => exact w.bind w.entryOf fun _ => w.union

/-! ### Calls -/

theorem construct : T.holds [] fun v => v.construct classId args span := by
  refine w.look (fun _ _ _ => rfl) fun s => ?_
  split
  · exact w.native
  · refine w.bind w.canonicalInstance fun object => ?_
    exact w.bind (w.discard w.callMethod) fun _ => w.pure

section Apply

variable (apply : ∀ {fn args span}, T.holds [] fun v => v.apply fn args span)

include apply

theorem callAlternative : T.holds [] fun v => v.callAlternative args span callee := by
  refine w.bind w.typeOf fun type => ?_
  split
  · exact apply
  · exact w.construct
  · exact w.resultOf
  · exact w.pure
  · refine w.bind w.display fun text => ?_
    exact w.bind w.report fun _ => w.pure

theorem callStep : T.holds [] fun v => v.callStep callee args span :=
  w.bind w.alternatives fun _ =>
    idle (w.unionOver fun _ _ => w.callAlternative apply)

end Apply
end Trait.Calling

namespace Trait.Below

variable {T : Trait} {own : ScopeId} (w : T.Below own)

include w

/-! ### Operations -/

theorem operatorMethod : T.holds [] fun v => v.operatorMethod object name args span := by
  cases name with
  | none => exact w.pure
  | some name => exact w.resultOf

theorem binaryOther : T.holds [] fun v => v.binaryOther left op right span := by
  refine w.bind w.typeOf fun l => w.bind w.typeOf fun r => ?_
  split
  case h_7 => exact w.bind w.union fun _ => w.newListOf
  case h_10 => exact w.newTuple
  case h_12 => exact w.operatorMethod
  case h_13 => exact w.operatorMethod
  all_goals exact w.pure

theorem binaryPair : T.holds [] fun v => v.binaryPair op span pair := by
  refine w.bind w.typeOf fun l => w.bind w.typeOf fun r => ?_
  split
  · exact w.pure
  · exact w.binaryOther

theorem binary : T.holds [] fun v => v.binary left op right span := by
  unfold Walker.binary
  split
  · exact w.union
  · split
    · exact w.pure
    · refine w.bind w.alternatives fun lefts => w.bind w.alternatives fun rights => ?_
      exact idle (w.unionOver fun pair _ => w.binaryPair)

theorem unary : T.holds [] fun v => v.unary op operand span := by
  unfold Walker.unary
  split
  · exact w.pure
  · refine w.bind w.alternatives fun ids => idle (w.unionOver fun id _ => ?_)
    refine w.bind w.typeOf fun type => ?_
    split
    case h_5 => exact w.operatorMethod
    all_goals exact w.pure

/-! ### Parts of definitions -/

theorem exprs {α : Type} {xs : List α} {f : α → Expr} :
    T.holds (xs.map fun x => .value (f x)) fun v => xs.mapM fun x => v.expr scope (f x) := by
  rw [List.map_eq_flatMap]
  exact w.mapM fun x _ => w.expr

theorem evals {es : List Expr} : T.holds (es.map .value) fun v => es.forM (v.eval scope) := by
  rw [List.map_eq_flatMap]
  exact w.forM fun e _ => w.discard w.expr

theorem optional : T.holds (o.toList.map .value) fun v => v.optional scope o := by
  cases o with
  | none => exact w.pure
  | some e => exact w.before w.expr fun _ => w.pure

theorem defaults :
    T.holds ((parameters.flatMap (·.exprs)).map .value) fun v => v.defaults scope parameters := by
  rw [List.map_flatMap]
  refine w.mapM fun p _ => ?_
  rw [Parameter.exprs, List.map_append]
  exact w.seq (w.discard w.optional) fun _ => w.optional

theorem classBase : T.holds [.value base] fun v => v.classBase scope classId base := by
  refine w.before w.expr fun base => w.look (fun _ _ _ => rfl) fun s => ?_
  exact w.bind (idle (w.forM fun found _ => w.addBase)) fun _ => w.pure

theorem classBases {bases : List Expr} :
    T.holds (bases.map .value) fun v => v.classBases scope classId bases := by
  rw [List.map_eq_flatMap]
  exact w.before (w.mapM fun base _ => w.classBase) fun _ => w.pure

section Definitions

variable (defaulted : ∀ {fn defaults}, T.holds [] fun _ => Walker.setDefaults fn defaults)

include defaulted

theorem function (defined : T.holds [.met (.function d)] fun _ => defineFunction scope d) :
    T.holds [.stmt (.function d)] fun v => v.function scope d := by
  refine w.site trivial ?_
  show T.holds (.met (.function d) :: (d.decorators ++ d.parameters.flatMap (·.exprs)).map .value) _
  rw [List.map_append]
  refine w.cons defined fun fn => w.seq w.evals fun _ => ?_
  refine w.before w.defaults fun defaults => ?_
  refine w.bind defaulted fun _ => w.bind w.functionKind fun kind => ?_
  exact w.bind (w.discard w.bindName) fun _ => w.recordType

theorem lambda {parameters : List (Parameter Expr)}
    (defined : T.holds [.met (.lambda node parameters body)]
      fun _ => defineLambda scope node parameters body) :
    T.holds (.met (.lambda node parameters body) :: (parameters.flatMap (·.exprs)).map .value)
      fun v => v.lambda scope node parameters body := by
  refine w.cons defined fun fn => w.before w.defaults fun defaults => ?_
  exact w.bind defaulted fun _ => w.pure

end Definitions

/-- What is done for a class with the table `own`, whose statement is in the scope `outer`. -/
theorem classBody {outer : ScopeId} {classId : TypeId} {d : ClassDef Stmt} :
    T.holds ((d.bases ++ d.decorators).map .value ++ d.body.map .stmt) fun v => (do
      let bases ← v.classBases outer classId d.bases
      addDefaultBase classId bases
      recordBases own bases
      d.decorators.forM fun e => discard (v.expr outer e)
      discard (bindName outer d.name ⟨d.node.id, d.name, d.nameSpan⟩ classId .classDef)
      recordType d.node.id classId
      discard (v.block own d.body)
      declareSlots classId d.body) := by
  rw [List.map_append, List.append_assoc]
  refine w.seq w.classBases fun bases => ?_
  refine w.bind w.addDefaultBase fun _ => w.bind w.recordBases fun _ => ?_
  refine w.seq w.evals fun _ => ?_
  refine w.bind (w.discard w.bindName) fun _ => ?_
  refine w.bind w.recordType fun _ => ?_
  exact w.before (w.discard w.block) fun _ => w.declareSlots

/-! ### Targets -/

theorem slice : T.holds ((lower.toList ++ (upper.toList ++ step.toList)).map .value)
      fun v => v.slice scope [lower, upper, step] := by
  have each : T.holds _ fun v => v.slice scope [lower, upper, step] :=
    w.forM fun part _ => w.discard w.optional
  simpa only [List.flatMap_cons, List.flatMap_nil, List.append_nil, List.map_append] using each

theorem setItem : T.holds [] fun v => v.setItem object index value span := by
  refine w.bind w.alternatives fun ids => idle (w.forM fun id _ => ?_)
  refine w.bind w.typeOf fun type => ?_
  split
  · exact w.widenList
  · exact w.widenEntry
  · exact w.discard w.callMethod
  · exact w.pure

theorem assignEach (scope : ScopeId) (pairs : List (Expr × TypeId)) :
    T.holds ((pairs.map (·.1)).map .target) fun v => v.assignEach scope pairs := by
  rw [List.map_map, List.map_eq_flatMap]
  exact w.forM fun pair _ => w.assign

theorem assignSame {targets : List Expr} : T.holds (targets.map .target)
      fun v => v.assignEach scope (targets.map fun target => (target, value)) := by
  have each := w.assignEach scope (targets.map fun target => (target, value))
  simpa only [List.map_map, Function.comp_def] using each

theorem unpack {star : Option Nat} (fitting : Walker.fits elements.length targets.length star = true)
    (within : ∀ k, star = some k → k < targets.length) :
    T.holds (targets.map .target) fun v => v.unpack scope targets elements star := by
  cases star with
  | none =>
    have lengths := of_decide_eq_true fitting
    have each := w.assignEach scope (targets.zip elements)
    rwa [List.map_fst_zip (Nat.le_of_eq lengths.symm)] at each
  | some k =>
    have enough := of_decide_eq_true fitting
    have inside := within k rfl
    -- The targets before the star, the star and those behind it are all the targets.
    have split : targets.map Site.target = (targets.take k).map Site.target ++
        (targets[k]?.toList.map Site.target ++ (targets.drop (k + 1)).map Site.target) := by
      rw [← List.map_append, ← List.map_append, List.getElem?_eq_getElem inside,
        Option.toList_some, List.singleton_append, List.getElem_cons_drop, List.take_append_drop]
    have before := w.assignEach scope ((targets.take k).zip (elements.take k))
    have behind := w.assignEach scope ((targets.drop (k + 1)).zip
      (elements.drop (elements.length - (targets.length - k - 1))))
    rw [List.map_fst_zip] at before behind
    · rw [split]
      refine w.seq before fun _ => w.bind w.unionAll fun value => ?_
      refine w.bind w.newListOf fun rest => ?_
      exact w.seq w.assignSame fun _ => behind
    · simp only [List.length_drop]
      omega
    · simp only [List.length_take]
      omega

theorem unpackEvenly :
    T.holds (targets.map .target) fun v => v.unpackEvenly scope targets value span := by
  rw [List.map_eq_flatMap]
  refine w.bind w.element fun element => w.forM fun target _ => ?_
  split
  · refine w.site trivial ?_
    exact w.bind w.newListOf fun list => w.assign
  · exact w.assign

theorem destructure :
    T.holds (targets.map .target) fun v => v.destructure scope targets value span := by
  refine w.bind w.typeOf fun type => ?_
  split
  · split
    · next fitting =>
      refine w.unpack fitting fun k first => ?_
      exact (List.findIdx?_eq_some_iff_getElem.mp first).1
    · split
      · exact w.bind w.report fun _ => w.assignSame
      · exact w.unpackEvenly
  · exact w.unpackEvenly

theorem index : T.holds [.index i] fun v => v.index scope i := by
  refine w.site trivial ?_
  cases i with
  | slice n lower upper step =>
    exact w.before w.slice fun _ => w.pure
  | _ => exact w.expr

theorem assignStep : T.holds [.target target] fun v => v.assignStep scope target value := by
  refine w.site trivial ?_
  cases target with
  | name n name =>
    refine w.bind w.variableKind fun kind => ?_
    exact w.bind (w.discard w.bindName) fun _ => w.noted
  | tuple n targets | list n targets =>
    exact w.seq w.destructure fun _ => w.noted
  | member n object name =>
    refine w.cons w.expr fun object => ?_
    exact w.bind w.setAttribute fun _ => w.noted
  | subscript n object i =>
    refine w.cons w.expr fun object => w.cons w.index fun index => ?_
    exact w.bind w.setItem fun _ => w.noted
  | starred n inner => exact w.assign
  | _ => exact w.discard w.expr

/-! ### Calls -/

theorem addArgument :
    T.holds [.value argument.value] fun v => v.addArgument scope span args argument := by
  refine w.before w.expr fun value => ?_
  cases argument with
  | positional | keyword | doubleStar => exact w.pure
  | star =>
    refine w.bind w.typeOf fun type => ?_
    split
    · exact w.pure
    · refine w.bind w.element fun element => ?_
      exact w.bind w.unionOpt fun _ => w.pure

theorem callExpr : T.holds (.value callee :: (arguments.map (·.value)).map .value)
      fun v => v.callExpr scope node callee arguments := by
  rw [List.map_map, List.map_eq_flatMap]
  refine w.cons w.expr fun fn => ?_
  refine w.before (w.foldlM fun argument _ args => ?_) fun args => ?_
  · exact w.addArgument
  · exact w.bind w.noteCall fun _ => w.call

/-! ### Expressions -/

theorem entry : T.holds ((e.1.toList ++ [e.2]).map .value) fun v => v.entry scope e := by
  obtain ⟨key, mapped⟩ := e
  have both : T.holds (.value mapped :: key.toList.map .value) fun v => v.entry scope (key, mapped) := by
    refine w.cons w.expr fun value => ?_
    cases key with
    | some key => exact w.before w.expr fun _ => w.pure
    | none =>
      refine w.bind w.typeOf fun type => ?_
      split <;> exact w.pure
  refine w.same (fun q => ?_) both
  simp [or_comm]

theorem dict : T.holds ((entries.flatMap fun e => e.1.toList ++ [e.2]).map .value)
      fun v => v.dict scope entries := by
  rw [List.map_flatMap]
  refine w.before (w.mapM fun e _ => w.entry) fun pairs => ?_
  exact w.bind w.unionAll fun key => w.bind w.unionAll fun value => w.newDict

theorem clause {c : Clause Expr} : T.holds c.sites fun v => v.clause scope span c := by
  refine w.cons w.expr fun iterable => w.bind w.element fun element => ?_
  exact w.cons w.assign fun _ => w.evals

theorem comprehension : T.holds (Expr.comprehension node kind element value clauses).sites
      fun v => v.comprehension scope node kind element value clauses := by
  refine w.bind w.comprehensionScope fun inner => ?_
  refine w.seq (w.forM fun c _ => w.clause) fun _ => ?_
  refine w.cons w.expr fun element => ?_
  cases kind with
  | list | generator => exact w.newListOf
  | set => exact w.look (fun _ _ _ => rfl) fun _ => w.pure
  | dict =>
    cases value with
    | none => exact w.newDict
    | some value => exact w.before w.expr fun _ => w.newDict

theorem member : T.holds [.value object] fun v => v.member scope e object name span := by
  refine w.before w.expr fun object => w.bind w.memberOf fun found => ?_
  split
  · exact w.pure
  · exact w.bind w.display fun text => w.bind w.report fun _ => w.pure

theorem itemOf {index id : TypeId} : T.holds [] fun v => v.itemOf index literal span id := by
  refine w.bind w.typeOf fun type => ?_
  split
  · exact w.pure
  · split
    · exact w.pure
    · exact w.unionAll
  · exact w.pure
  · exact w.pure
  · exact w.resultOf
  · exact w.pure

theorem subscript : T.holds [.value object, .index i] fun v => v.subscript scope node object i := by
  refine w.cons w.expr fun object => w.before w.index fun index => ?_
  split
  · refine w.bind w.alternatives fun ids => ?_
    exact idle (w.unionOver fun id _ => w.sliceOf)
  · refine w.bind w.alternatives fun ids => ?_
    exact idle (w.unionOver fun id _ => w.itemOf)

theorem valueOf : T.holds (o.toList.map .value) fun v => v.valueOf scope o := by
  cases o with
  | none => exact w.pure
  | some e => exact w.expr

/-! ### Imports -/

theorem modulePath? : T.holds [] fun v => v.modulePath? dir name := by
  refine w.bind w.ask fun isDir => ?_
  split
  · exact w.pure
  · refine w.bind w.ask fun isFile => ?_
    split <;> exact w.pure

theorem packageDir? : T.holds [] fun v => v.packageDir? module := by
  refine w.bind w.typeOf fun type => ?_
  split
  · dsimp only
    split
    · exact w.pure
    · refine w.bind w.ask fun isDir => ?_
      split <;> exact w.pure
  · exact w.pure

theorem loadPackage : T.holds [] fun v => v.loadPackage dir := by
  refine w.bind w.ask fun isFile => ?_
  split
  · exact w.load
  · refine w.look (fun _ _ _ => rfl) fun s => ?_
    split
    · exact w.pure
    · refine w.bind w.newModule fun package => w.bind (w.note ?_) fun _ => w.pure
      exact .aside (fun _ _ => rfl) (fun _ => rfl) (fun _ => rfl) fun _ => rfl

theorem loadFound : T.holds [] fun v => v.loadFound found := by
  cases found with
  | file path => exact w.load
  | package path => exact w.loadPackage

theorem loadChain : T.holds [] fun v => v.loadChain dir parent parts := by
  induction parts generalizing dir parent with
  | nil => exact w.pure
  | cons part parts ih =>
    refine w.bind w.modulePath? fun found => ?_
    split
    · exact w.pure
    · next found =>
      refine w.bind w.loadFound fun module => ?_
      split
      · exact w.pure
      · next module =>
        have linked : T.holds [] fun _ =>
            parent.forM fun parent => linkSubmodule parent part module := by
          cases parent with
          | none => exact w.pure
          | some parent => exact w.linkSubmodule
        exact w.bind linked fun _ => w.bind ih fun _ => w.pure

theorem resolve : T.holds [] fun v => v.resolve importer name := by
  refine w.look (fun _ _ _ => rfl) fun s => w.bind (w.filterM fun dir _ => ?_) fun found => ?_
  · exact w.bind w.modulePath? fun _ => w.pure
  · split
    · exact w.loadChain
    · exact w.pure

theorem resolveRelative : T.holds [] fun v => v.resolveRelative importer level name := by
  unfold Walker.resolveRelative
  split
  · exact w.pure
  · split
    · exact w.loadPackage
    · exact w.bind w.loadChain fun _ => w.pure

theorem submodule? : T.holds [] fun v => v.submodule? package name := by
  refine w.bind w.packageDir? fun dir => ?_
  split
  · exact w.pure
  · refine w.bind w.modulePath? fun found => ?_
    split
    · exact w.pure
    · refine w.bind w.loadFound fun module => ?_
      split
      · exact w.pure
      · exact w.bind w.linkSubmodule fun _ => w.pure

theorem importModule : T.holds [] fun v => v.importModule scope file a := by
  refine w.bind w.resolve fun modules => ?_
  dsimp only
  split
  · refine w.bind w.report fun _ => ?_
    split <;> exact w.bindImport
  · split <;> exact w.bindImport

theorem imports : T.holds [] fun v => v.imports scope names := by
  refine w.bind w.fileOf fun file => ?_
  split
  · exact w.pure
  · exact idle (w.forM fun a _ => w.importModule)

theorem importedValue : T.holds [] fun v => v.importedValue module table a := by
  refine w.look (fun _ _ _ => rfl) fun s => ?_
  split
  · next bindings _ => exact w.bind w.addRefs fun _ => w.unionOfBindings
  · refine w.bind w.submodule? fun found => ?_
    split
    · exact w.pure
    · exact w.bind w.report fun _ => w.pure

theorem importSource : T.holds [] fun v => v.importSource file source level := by
  unfold Walker.importSource
  split
  · exact w.resolveRelative
  · exact w.bind w.resolve fun _ => w.pure

theorem importMissing : T.holds [] fun _ => Walker.importMissing scope node source level names :=
  w.bind w.report fun _ => idle (w.forM fun _ _ => w.bindImport)

theorem importFrom : T.holds [] fun v => v.importFrom scope node source level names isStar := by
  refine w.bind w.fileOf fun file => ?_
  split
  · exact w.pure
  · refine w.bind w.importSource fun module => ?_
    split
    · exact w.importMissing
    · refine w.bind w.tableOf fun table => ?_
      split
      · exact w.importMissing
      · split
        · exact w.importStar
        · refine idle (w.forM fun a _ => w.bind w.importedValue fun value => ?_)
          exact w.bindImport

/-! ### Statements -/

theorem exception : T.holds (h.exception.toList.map .value) fun v => v.exception scope h := by
  unfold Walker.exception
  cases h.exception with
  | some e => exact w.before w.expr fun id => w.instanceOf
  | none => exact w.pure

theorem part : T.holds p.sites fun v => v.part own p := by
  cases p with
  | plain body => exact w.bind w.pure fun _ => w.block
  | handler h =>
    have entered : T.holds (h.exception.toList.map .value) fun v => v.enter own (.handler h) :=
      w.before w.exception fun exception => w.bindException
    exact w.seq entered fun _ => w.block

theorem anyOf (parts : List Walker.Part) :
    T.holds (parts.flatMap (·.sites)) fun v => v.anyOf own parts :=
  w.unionOver fun _ _ => w.part

theorem twoBlocks :
    T.holds ((yes ++ no).map .stmt) fun v => v.anyOf own [.plain yes, .plain no] := by
  have both := w.anyOf [.plain yes, .plain no]
  simpa only [List.flatMap_cons, List.flatMap_nil, List.append_nil, Walker.Part.sites,
    List.map_append] using both

theorem tryBlock : T.holds (parts.flatMap (·.sites) ++ final.map .stmt)
      fun v => v.tryBlock own parts final := by
  refine w.seq (w.anyOf parts) fun flow => ?_
  cases final with
  | nil => exact w.pure
  | cons =>
    refine w.before w.block fun last => w.bind w.contains fun goes => ?_
    split <;> exact w.pure

theorem withItem : T.holds item.sites fun v => v.withItem scope span item := by
  refine w.cons w.expr fun context => ?_
  cases item.target with
  | none => exact w.pure
  | some target =>
    exact w.bind w.callMethod fun entered => w.assign

theorem delete : T.holds [.value target] fun v => v.delete own target := by
  refine w.before (w.discard w.expr) fun _ => ?_
  split
  · exact w.undefine
  · exact w.pure

theorem declared : T.holds (value.toList.map .value) fun v => v.declared scope hint value := by
  cases value with
  | none => exact w.instanceOf
  | some e => exact w.expr

end Trait.Below

theorem Trait.classDef {T : Trait} (w : ∀ scope, T.Below scope)
    (done : ∀ A, T.holds A fun _ => pure ()) (defined : T.holds [] fun _ => defineClass scope d) :
    T.holds ((d.bases ++ d.decorators).map .value ++ d.body.map .stmt)
      fun v => v.classDef scope d := by
  refine (w scope).bind defined fun classId => (w scope).bind (w scope).tableOf fun table => ?_
  split
  · exact done _
  · next table => exact (w table).classBody

namespace Trait.Hereditary

variable {T : Trait} {own : ScopeId} (w : T.Hereditary own)

include w

theorem yieldExpr :
    T.holds (value.toList.map .value) fun v => v.yieldExpr scope node value isFrom := by
  refine w.before w.valueOf fun value => ?_
  have yielded : T.holds [] fun v => v.yielded value isFrom node.span := by
    unfold Walker.yielded
    split
    · exact w.element
    · exact w.pure
  exact w.bind yielded fun value => w.bind w.yieldValue fun _ => w.pure

theorem infer :
    T.holds ((Phrase.expr e).definition?.toList.map .met ++ e.sites) fun v => v.infer scope e := by
  cases e with
  | number | string | constant => exact w.pure
  | name n name => exact w.readName
  | list n elements =>
    refine w.before w.exprs fun types => ?_
    exact w.bind w.unionAll fun _ => w.newList
  | tuple n elements => exact w.before w.exprs fun types => w.newTuple
  | set n elements =>
    exact w.before w.evals fun _ => w.look (fun _ _ _ => rfl) fun _ => w.pure
  | dict n entries => exact w.dict
  | comprehension n kind element value clauses =>
    exact w.comprehension
  | member n object name span => exact w.member
  | subscript n object index => exact w.subscript
  | slice n lower upper step =>
    exact w.before w.slice fun _ => w.pure
  | call n callee arguments => exact w.callExpr
  | unary n op operand =>
    exact w.before w.expr fun value => w.unary
  | binary n op left right =>
    refine w.cons w.expr fun left => ?_
    exact w.before w.expr fun right => w.binary
  | conditional n condition body otherwise =>
    refine w.cons (w.discard w.expr) fun _ => ?_
    refine w.cons w.expr fun body => ?_
    exact w.before w.expr fun otherwise => w.union
  | lambda n parameters body => exact w.lambda
  | yield n value isFrom => exact w.yieldExpr
  | await n value | starred n value => exact w.expr

theorem exprStep : T.holds [.value e] fun v => v.exprStep scope e := by
  refine w.site trivial (w.seq w.infer fun type => ?_)
  exact w.before w.noted fun _ => w.pure

/-- What a statement does that the walk always goes on behind. -/
theorem simple {F : Walker → Analysis Unit} (holds : T.holds A F) :
    T.holds A fun v => F v >>= fun _ => pure TypeId.cont :=
  w.before holds fun _ => w.pure

theorem stmt : T.holds [.stmt t] fun v => v.stmt own t := by
  have evals : ∀ es : List Expr, T.holds (es.map .value ++ [])
      fun v => es.forM (v.eval own) >>= fun _ => pure TypeId.cont := by
    intro es
    rw [List.append_nil]
    exact w.simple w.evals
  cases t with
  | function d => exact w.simple w.function
  | classDef d => exact w.simple w.classDef
  | expression n e => exact w.site trivial (w.simple (w.discard w.expr))
  | assign n targets value =>
    refine w.site trivial (w.simple (w.cons w.expr fun value => ?_))
    rw [List.map_eq_flatMap]
    exact w.forM fun target _ => w.assign
  | augment n target op value =>
    refine w.site trivial (w.simple (w.cons w.expr fun current => ?_))
    refine w.cons w.expr fun value => ?_
    exact w.bind w.binary fun result => w.assign
  | declare n target hint value =>
    refine w.site trivial (w.simple (w.cons w.expr fun hint => ?_))
    exact w.seq w.declared fun value => w.assign
  | raise n exception cause => exact w.site trivial (evals _)
  | assert n test message => exact w.site trivial (evals (test :: message.toList))
  | print n destination values => exact w.site trivial (evals _)
  | delete n targets =>
    refine w.site trivial (w.simple ?_)
    show T.holds (targets.map .value ++ []) _
    rw [List.append_nil, List.map_eq_flatMap]
    exact w.forM fun target _ => w.delete
  | globals n names | nonlocals n names =>
    refine w.site trivial (w.simple (w.declareNames fun _ _ => ?_))
    exact .modify fun _ => ⟨rfl, rfl⟩
  | imports n names => exact w.site trivial (w.simple w.imports)
  | importFrom n source level names isStar =>
    exact w.site trivial (w.simple w.importFrom)
  | pass | breakLoop | continueLoop => exact w.site trivial (w.simple w.pure)
  | returns n value =>
    refine w.site trivial ?_
    show T.holds (value.toList.map .value ++ []) _
    rw [List.append_nil]
    exact w.valueOf
  | branch n condition yes no | whileLoop n condition yes no =>
    refine w.site trivial (w.cons (w.discard w.expr) fun _ => ?_)
    exact w.twoBlocks
  | forLoop n target iter body otherwise =>
    refine w.site trivial (w.cons w.expr fun iterable => ?_)
    refine w.bind w.element fun element => ?_
    exact w.cons w.assign fun _ => w.twoBlocks
  | tryBlock n body handlers otherwise final =>
    refine w.site trivial (w.same (fun q => Stmt.mem_sites_tryBlock) ?_)
    exact w.tryBlock
  | withBlock n items body =>
    refine w.site trivial ?_
    show T.holds (items.flatMap (·.sites) ++ body.map .stmt) _
    exact w.seq (w.forM fun item _ => w.withItem) fun _ => w.block

theorem blockStep : T.holds (body.map .stmt) fun v => v.blockStep own body := by
  rw [List.map_eq_flatMap]
  refine w.before (w.foldlM fun t _ f => ?_) fun f => w.typeOfFlow
  exact w.before w.stmt fun flow => w.addFlow

end Trait.Hereditary

/-! ### The whole walk -/

/-- A property of activities as a trait of the walk `w`. -/
def Trait.of (P : (α : Type) → ScopeId → List Site → Analysis α → Prop) (w : Walker)
    (scope : ScopeId) : Trait :=
  ⟨fun A F => P _ scope A (F w)⟩

/-- A property that is passed on from each level of a walk to the next one, files included. -/
theorem Trait.below_walker (composed : ∀ w scope, (Trait.of P w scope).Composed)
    (noted : ∀ {scope node type}, P _ scope [.noted node] (recordType node type))
    (undefine : ∀ {scope name}, P _ scope [] (modifyScopes (·.undefine scope name)))
    (inherits : ∀ n, (∀ scope, (Trait.of P (walker files limits n) scope).Below scope) →
      ∀ scope, (Trait.of P (walker files limits n) scope).Hereditary scope)
    (loads : ∀ n, (∀ scope, (Trait.of P (walker files limits n) scope).Hereditary scope) →
      ∀ {scope path}, P _ scope [] ((walker files limits n).loadStep path))
    (n : Nat) : ∀ scope, (Trait.of P (walker files limits n) scope).Below scope := by
  have ask : ∀ {w scope p} {α : Type} {answer : FileSystem → α},
      (Trait.of P w scope).holds [] fun v => v.ask p answer := by
    intro w scope p α answer
    show P _ scope [] (if w.files.isSeen p then Pure.pure (answer w.files) else throw (.unseen p))
    split
    · exact (composed w scope).pure
    · exact (composed w scope).throw
  induction n with
  | zero =>
    intro scope
    have endless : ∀ {α : Type} {A : List Site}, P α scope A (throw .endless) :=
      (composed (walker files limits 0) scope).throw
    exact { composed _ scope with
      ask
      noted
      undefine
      expr := endless
      block := endless
      assign := endless
      element := endless
      call := endless
      load := endless }
  | succ n ih =>
    intro scope
    have level := inherits n ih
    exact { composed _ scope with
      ask
      noted
      undefine
      expr := (level scope).exprStep
      block := (level scope).blockStep
      assign := (level scope).assignStep
      element := (level scope).elementStep
      call := (level scope).callStep (level scope).apply
      load := loads n level }

end FlowTypes
