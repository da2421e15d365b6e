import FlowTypes.Proofs.Walk.Expressions

/-! Files and imports in a walk. A file that is loaded is known from the start, so a walk that comes
back to it while it is being walked finds it. -/
namespace FlowTypes

open TypeStore Analysis

variable {s s' : State} {w : Walker}

/-- The value is that of a file or of a package without one. -/
def State.HoldsModule (s : State) (v : TypeId) : Prop :=
  (∃ status ∈ s.modules.values, status.value? = some v) ∨ v ∈ s.packages.values

theorem State.Valid.holds (valid : s.Valid) (holds : s.HoldsModule v) : s.Value v := by
  rcases holds with ⟨status, member, found⟩ | member
  · exact valid.modules status member v found
  · exact valid.packages v member

namespace Analysis

theorem walks_newModule : Walks (newModule name file) s fun s' v =>
      s'.IsModule v ∧ s'.packages = s.packages :=
  .get_bind (.onHeap (.newModule _ name file _) ⟨⟨_, Heap.isModule_newModule⟩, rfl⟩)

theorem walks_introduceModule :
    Walks (introduceModule p tree) s fun s' v => s'.IsModule v := by
  refine walks_newModule.bind fun v s₁ _ known => ?_
  have bound : Walks (modify fun s => { s with bindings := (s.bindings.create {
      name := (ModuleName.ofPath p).name, kind := .module, type := v,
      qualified := (ModuleName.ofPath p).qualified,
      node := ⟨tree.node.id, s!"(module:{p.toString})", tree.node.span⟩ }).2 }) s₁
      fun s' _ => s'.IsModule v :=
    .modifyGet (.step (.bindModule known.1.value rfl rfl rfl)) known.1
  exact bound.bind fun _ _ _ known => .pure known

theorem walks_declareModule : Walks (declareModule table tree) s Anything := by
  refine .assume fun valid => ?_
  refine (walks_defineImplicit valid.str).bind fun _ _ on₁ _ => ?_
  refine (walks_defineImplicit on₁.valid.str).bind fun _ _ _ _ => ?_
  exact walks_declareDefinitions

theorem walks_linkSubmodule
    (hm : s.Value module) : Walks (linkSubmodule package name module) s Anything := by
  refine .get_bind ?_
  split
  · exact .pure trivial
  · split
    · exact .pure trivial
    · exact walks_defineSynthetic hm rfl

end Analysis

namespace Walker

section

variable (sound : w.Sound)

include sound

theorem run_walkBody (valid : s.Valid) (ran : (w.walkBody p tree table).run s = .ok ((), s')) :
    ∃ s₁ s₂, Onward s s₁ ∧ Onward (s₁.advance p .bound) s₂ ∧
      State.BlockWalked tree.body (s₁.advance p .bound) s₂ ∧
      Onward (s₂.advance p .inferred) s' := by
  obtain ⟨_, s₁, declared, ran⟩ := Walks.run_bind ran
  obtain ⟨on₁, _⟩ := walks_declareModule valid _ _ declared
  obtain ⟨_, _, ⟨⟩, ran⟩ := Walks.run_bind ran
  obtain ⟨_, s₂, walked, ran⟩ := Walks.run_bind ran
  obtain ⟨flow, walked⟩ := Walks.run_discard walked
  obtain ⟨on₂, _⟩ := sound.block table tree.body (on₁.valid.advance p .bound) _ _ walked
  obtain ⟨_, _, ⟨⟩, ran⟩ := Walks.run_bind ran
  obtain ⟨on₃, _⟩ := walks_debug (on₂.valid.advance p .inferred) _ _ ran
  obtain ⟨files, limits, n, rfl⟩ := sound.level
  exact ⟨s₁, s₂, on₁, on₂, ⟨files, limits, n, table, flow, walked⟩, on₃⟩

theorem run_walkModule (valid : s.Valid) (ran : (w.walkModule p tree).run s = .ok (value, s')) :
    ∃ s₁ s₂ s₃, Onward s s₁ ∧ s₁.IsModule value ∧
      Onward (s₁.setStatus p (.loaded .parsed value tree)) s₂ ∧
      Onward (s₂.advance p .bound) s₃ ∧ State.BlockWalked tree.body (s₂.advance p .bound) s₃ ∧
      Onward (s₃.advance p .inferred) s' := by
  obtain ⟨v, s₁, made, ran⟩ := Walks.run_bind ran
  obtain ⟨on₁, hv⟩ := walks_introduceModule valid _ _ made
  obtain ⟨_, _, ⟨⟩, ran⟩ := Walks.run_bind ran
  obtain ⟨_, _, ⟨⟩, ran⟩ := Walks.run_bind ran
  -- A module that was just made has a table.
  split at ran
  · next without =>
    obtain ⟨table, isModule⟩ := hv
    exact nomatch isModule.tableOf.symm.trans without
  · next table found =>
    obtain ⟨_, s₄, walked, ⟨⟩⟩ := Walks.run_bind ran
    obtain ⟨s₂, s₃, on₂, on₃, body, on₄⟩ := run_walkBody sound
      (on₁.valid.setStatus p (by rintro _ ⟨⟩; exact hv.value)) walked
    exact ⟨s₁, s₂, s₃, on₁, hv, on₂, on₃, body, on₄⟩

omit sound in
theorem run_ask (ran : (w.ask p answer).run s = .ok (a, s')) : a = answer w.files ∧ s' = s := by
  unfold ask at ran
  split at ran
  · cases ran
    exact ⟨rfl, rfl⟩
  · cases ran

omit sound in
theorem walks_failed {p : Path} {message : String} (valid : s.Valid) (new : s.status? p = none)
    (ran : (fail p message).run (s.setStatus p .unparsed) = .ok ((), s')) :
    Onward s s' ∧ s'.status? p = some .failed := by
  obtain ⟨_, _, ⟨⟩, ⟨⟩⟩ := Walks.run_bind ran
  refine ⟨.of_walked (.failure ⟨.warn, message⟩ new) valid, ?_⟩
  exact (State.status?_setStatus _ .failed).trans (if_pos rfl)

theorem walks_parsed (valid : s.Valid) (new : s.status? p = none)
    (read : ∃ source, Module.parse source p.toString s.nextNode = .ok (tree, next))
    (on₀ : Onward { s.setStatus p .unparsed with nextNode := next } s₀)
    (ran : (w.walkModule p tree).run s₀ = .ok (value, s')) :
    Onward s s' ∧ s'.status? p = some (.loaded .inferred value tree) := by
  obtain ⟨s₁, s₂, s₃, on₁, hv, on₂, on₃, body, on₄⟩ := run_walkModule sound on₀.valid ran
  have walked : s.Walked (s₃.advance p .inferred) :=
    .load next new read (on₀.walked.trans on₁.walked) hv on₂.walked on₃.walked body
  have on := (Onward.of_walked walked valid).trans on₄
  have parsed := on₂.walked.status ((State.status?_setStatus s₁ _).trans (if_pos rfl))
  have bound : (s₂.advance p .bound).status? p = some (.loaded .bound value tree) := by
    rw [State.status?_advance, if_pos rfl, parsed]
    rfl
  have inferred : (s₃.advance p .inferred).status? p = some (.loaded .inferred value tree) := by
    rw [State.status?_advance, if_pos rfl, on₃.walked.status bound]
    rfl
  exact ⟨on, on₄.walked.status inferred⟩

theorem walks_loadStep (p : Path) : Walks (w.loadStep p) s (State.Loaded p) := by
  refine .assume fun valid => .get_bind ?_
  split
  · next status found =>
    exact .pure ⟨status, found, rfl⟩
  · next new =>
    intro _ result s' ran
    obtain ⟨_, _, ⟨⟩, ran⟩ := Walks.run_bind ran
    obtain ⟨source, s₁, asked, ran⟩ := Walks.run_bind ran
    obtain ⟨rfl, rfl⟩ := run_ask asked
    split at ran
    · obtain ⟨_, _, failed, ⟨⟩⟩ := Walks.run_bind ran
      obtain ⟨on, known⟩ := walks_failed valid new failed
      exact ⟨on, _, known, rfl⟩
    · obtain ⟨_, _, ⟨⟩, ran⟩ := Walks.run_bind ran
      split at ran
      · obtain ⟨_, _, failed, ⟨⟩⟩ := Walks.run_bind ran
        obtain ⟨on, known⟩ := walks_failed valid new failed
        exact ⟨on, _, known, rfl⟩
      · next tree next parsed =>
        obtain ⟨_, _, ⟨⟩, ran⟩ := Walks.run_bind ran
        obtain ⟨_, s₀, logged, ran⟩ := Walks.run_bind ran
        have unparsed : State.Valid { s.setStatus p .unparsed with nextNode := next } :=
          { valid.setStatus p State.unparsed_valid with }
        obtain ⟨on₀, _⟩ := walks_debug unparsed _ _ logged
        obtain ⟨value, _, walked, ⟨⟩⟩ := Walks.run_bind ran
        obtain ⟨on, known⟩ := walks_parsed sound valid new ⟨_, parsed⟩ on₀ walked
        exact ⟨on, _, known, rfl⟩

/-! ### Looking for modules -/

omit sound in
theorem walks_modulePath? : Walks (w.modulePath? dir name) s Anything := by
  refine Walks.ask.bind fun isDir _ _ _ => ?_
  split
  · exact .pure trivial
  · refine Walks.ask.bind fun isFile _ _ _ => ?_
    split <;> exact .pure trivial

/-- A module that is found is that of a file or of a package. -/
abbrev Finds (s : State) (module : Option TypeId) : Prop := ∀ v, module = some v → s.HoldsModule v

theorem walks_load : Walks (w.load p) s Finds := by
  refine (sound.load p).mono fun module s' _ loaded v found => ?_
  obtain ⟨status, known, value⟩ := loaded
  exact .inl ⟨status, InsertionMap.mem_values_of_get? known, value.trans found⟩

theorem walks_loadPackage : Walks (w.loadPackage dir) s Finds := by
  refine Walks.ask.bind fun isFile _ on₁ _ => ?_
  split
  · exact walks_load sound
  · refine .get_bind ?_
    split
    · next package found =>
      refine .pure ?_
      rintro _ ⟨⟩
      exact .inr (InsertionMap.mem_values_of_get? found)
    · next new =>
      refine walks_newModule.bind fun package s₂ _ known => ?_
      have noted : Walks (modify fun s => { s with
          packages := s.packages.insert dir.components package }) s₂
          fun s₃ _ => s₃.packages.get? dir.components = some package :=
        .modifyGet (.step (.package (known.2 ▸ new) known.1))
          ((InsertionMap.get?_insert ..).trans (if_pos rfl))
      refine noted.bind fun _ _ _ found => .pure ?_
      rintro _ ⟨⟩
      exact .inr (InsertionMap.mem_values_of_get? found)

theorem walks_loadFound : Walks (w.loadFound found) s Finds := by
  cases found with
  | file path => exact walks_load sound
  | package path => exact walks_loadPackage sound

/-- What importing a dotted name gives: a module for each part that was found. -/
def Chain (s : State) (modules : List (Option TypeId)) : Prop := ∀ m ∈ modules, s.Optional m

omit sound in
theorem chain_replicate : Chain s (List.replicate n none) := fun _ member =>
  List.eq_of_mem_replicate member ▸ s.optional_none

omit sound in
theorem Chain.last (h : Chain s modules) : s.Optional modules.getLast?.join := fun v found =>
  h _ (List.mem_of_getLast? (Option.join_eq_some_iff.mp found)) v rfl

omit sound in
theorem Chain.first (h : Chain s modules) : s.Optional modules.head?.join := fun v found =>
  h _ (List.mem_of_mem_head? (Option.join_eq_some_iff.mp found)) v rfl

theorem walks_loadChain (dir : Path) (parent : Option TypeId) (parts : List String) :
    Walks (w.loadChain dir parent parts) s Chain := by
  induction parts generalizing s dir parent with
  | nil => exact .pure (by simp [Chain])
  | cons part parts ih =>
    refine walks_modulePath?.bind fun found _ _ _ => ?_
    split
    · exact .pure chain_replicate
    · refine (walks_loadFound sound).bind fun module s₂ on₂ known => ?_
      split
      · exact .pure chain_replicate
      · next module =>
        have hm := on₂.valid.holds (known module rfl)
        have linked : Walks (parent.forM fun parent => linkSubmodule parent part module) s₂
            Anything := by
          cases parent with
          | none => exact .pure trivial
          | some parent => exact walks_linkSubmodule hm
        refine linked.bind fun _ _ on₃ _ => ?_
        refine (ih _ _).bind fun rest _ on₄ chain => ?_
        refine .pure fun m member => ?_
        rcases List.mem_cons.mp member with rfl | member
        · exact State.optional_some (on₄.value (on₃.value hm))
        · exact chain m member

theorem walks_resolve : Walks (w.resolve importer name) s Chain := by
  refine .get_bind ?_
  refine Walks.bind (Q := Anything) (.filterM fun dir _ s₁ on₁ => ?_)
    fun found s₁ on₁ _ => ?_
  · exact walks_modulePath?.bind fun _ _ _ _ => .pure trivial
  · split
    · exact walks_loadChain sound _ none _
    · refine .pure fun m member => ?_
      obtain ⟨_, _, rfl⟩ := List.mem_map.mp member
      exact s₁.optional_none

theorem walks_resolveRelative : Walks (w.resolveRelative importer level name) s State.Optional := by
  unfold resolveRelative
  split
  · exact .pure s.optional_none
  · split
    · exact (walks_loadPackage sound).mono fun _ _ on known v found => on.valid.holds (known v found)
    · refine (walks_loadChain sound _ _ _).bind fun modules _ _ chain => ?_
      exact .pure chain.last

omit sound in
theorem walks_packageDir? : Walks (w.packageDir? module) s Anything := by
  refine .gets_bind ?_
  split
  · dsimp only
    split
    · exact .pure trivial
    · refine Walks.ask.bind fun isDir _ _ _ => ?_
      split <;> exact .pure trivial
  · exact .pure trivial

theorem walks_submodule? : Walks (w.submodule? package name) s State.Optional := by
  refine walks_packageDir?.bind fun dir s₁ _ _ => ?_
  split
  · exact .pure s₁.optional_none
  · refine walks_modulePath?.bind fun found s₂ _ _ => ?_
    split
    · exact .pure s₂.optional_none
    · refine (walks_loadFound sound).bind fun module s₃ on₃ known => ?_
      split
      · exact .pure s₃.optional_none
      · next module =>
        have hm := on₃.valid.holds (known module rfl)
        refine (walks_linkSubmodule hm).bind fun _ _ on₄ _ => ?_
        exact .pure (State.optional_some (on₄.value hm))

/-! ### Imports -/

omit sound in
theorem walks_bindImport
    (hv : s.Value value) : Walks (bindImport scope a value name) s Anything := by
  refine walks_variableKind.bind fun kind _ on₁ _ => ?_
  exact (walks_bindName (on₁.value hv)).discard

theorem walks_importModule : Walks (w.importModule scope file a) s Anything := by
  refine (walks_resolve sound).bind fun modules _ on₁ chain => ?_
  have last := chain.last.getD on₁.valid.unknown
  have first := chain.first.getD on₁.valid.unknown
  dsimp only
  split
  · refine walks_report.bind fun _ _ on₂ _ => ?_
    split
    · exact walks_bindImport (on₂.value last)
    · exact walks_bindImport (on₂.value first)
  · split
    · exact walks_bindImport last
    · exact walks_bindImport first

theorem walks_imports : Walks (w.imports scope names) s Anything := by
  refine walks_fileOf.bind fun file _ _ _ => ?_
  split
  · exact .pure trivial
  · exact .forM fun a _ _ on => walks_importModule sound

omit sound in
theorem walks_importStar : Walks (importStar scope node table) s Anything := by
  refine walks_variableKind.bind fun kind _ _ _ => .get_bind ?_
  refine .forM fun name _ _ _ => .get_bind ?_
  split
  · exact .pure trivial
  · refine walks_unionOfBindings.bind fun value _ _ hv => ?_
    exact (walks_bindName hv).discard

theorem walks_importedValue : Walks (w.importedValue module table a) s State.Value := by
  refine .get_bind ?_
  split
  · next bindings _ =>
    refine walks_addRefs.bind fun _ s₁ on₁ _ => ?_
    exact walks_unionOfBindings
  · refine (walks_submodule? sound).bind fun found s₁ on₁ known => ?_
    split
    · exact .pure (known _ rfl)
    · refine walks_report.bind fun _ _ on₂ _ => ?_
      exact .pure on₂.valid.unknown

theorem walks_importSource : Walks (w.importSource file source level) s State.Optional := by
  unfold importSource
  split
  · exact walks_resolveRelative sound
  · refine (walks_resolve sound).bind fun modules _ _ chain => ?_
    exact .pure chain.last

omit sound in
theorem walks_importMissing : Walks (importMissing scope node source level names) s Anything := by
  refine walks_report.bind fun _ _ _ _ => ?_
  exact .forM fun a _ _ on => walks_bindImport on.valid.unknown

theorem walks_importFrom :
    Walks (w.importFrom scope node source level names isStar) s Anything := by
  refine walks_fileOf.bind fun file _ _ _ => ?_
  split
  · exact .pure trivial
  · refine (walks_importSource sound).bind fun module _ _ _ => ?_
    split
    · exact walks_importMissing
    · refine .gets_bind ?_
      split
      · exact walks_importMissing
      · split
        · exact walks_importStar
        · refine .forM fun a _ s₃ on₃ => ?_
          refine (walks_importedValue sound).bind fun v _ _ hv => ?_
          exact walks_bindImport hv

end
end Walker
end FlowTypes
