import FlowTypes.Proofs.Bisimulation
import FlowTypes.Types.Printer

/-! Types as text, without a bound on the depth. What is written of a type is a tree, in which a back
reference stands inside of the type that it refers to; on types that do not contain themselves it is
what one gets without any labels. The types around a place are distinct types of the store, so writing
comes to an end. -/
namespace FlowTypes

/-! ### Frames -/

/-- How a type that may contain itself is written: what its text stands between, and how it is put
together from the texts of the types inside. -/
structure TypeFrame where
  /-- The type that a back reference refers to. -/
  key : TypeId
  opening : String
  closing : String
  suffix : Option String
  parts : List TypeId
  merge : List String → String

namespace TypeFrame

def label (f : TypeFrame) (number : Nat) (isUsed : Bool) : String :=
  match f.suffix with
  | some suffix => if isUsed then s!"=#{number}{suffix}" else ""
  | none => ""

def text (f : TypeFrame) (number : Nat) (isUsed : Bool) (parts : List String) : String :=
  f.opening ++ f.merge parts ++ f.label number isUsed ++ f.closing

/-- The text without a label. -/
def plainText (f : TypeFrame) (parts : List String) : String := f.opening ++ f.merge parts ++ f.closing

theorem text_unlabelled {f : TypeFrame} {number : Nat} {parts : List String} :
    f.text number false parts = f.plainText parts := by
  unfold text plainText label
  cases f.suffix <;> simp

end TypeFrame

/-- A type is written as a word or in a frame. -/
inductive Face
  | word (text : String)
  | framed (frame : TypeFrame)

/-- Arrows from the texts of their arguments and results in turn. -/
def arrowTexts : List String → List String
  | arguments :: result :: others => s!"{arguments} -> {result}" :: arrowTexts others
  | _ => []

namespace TypeStore

/-- The arrows of a function are those of the function that owns the signature table. -/
def arrowsFace (s : TypeStore) (owner : TypeId) : Face :=
  match ((s.function? owner).map (·.arrows)).getD [] with
  | [] => .word "? -> ?"
  | arrows => .framed
    { key := owner, opening := "", closing := "", suffix := some ": "
      parts := arrows.flatMap fun arrow => [arrow.arguments, arrow.result]
      merge := fun texts => " | ".intercalate (distinctTexts (arrowTexts texts)) }

def face (s : TypeStore) (id : TypeId) : Face :=
  match s.get id with
  | .unknown => .word "?"
  | .none | .cont => .word "None"
  | .bool _ => .word "bool"
  | .int => .word "int"
  | .float => .word "float"
  | .complex => .word "complex"
  | .str => .word "str"
  | .dict _ => .word "dict"
  | .classType d => .word s!"<{d.name}>"
  | .instanceOf d => .word (s.instanceName d)
  | .module d => .word d.name
  | .list d => .framed ⟨id, "[", "]", none, [d.element], ", ".intercalate⟩
  | .tuple d =>
    let brackets := if d.elements.length = 1 then ("", "") else ("(", ")")
    .framed ⟨id, brackets.1, brackets.2, some ":", d.elements, ", ".intercalate⟩
  | .union types => .framed ⟨id, "\x7b", "\x7d", some ":", types, " | ".intercalate⟩
  | .function _ => s.arrowsFace (s.originOf id)

end TypeStore

/-- Writes a face, given how the types inside are written. -/
def Face.write (part : Enclosing → TypeId → Printer String) (enclosing : Enclosing) :
    Face → Printer String
  | word text => return text
  | framed f => Printer.labelled enclosing f.key f.opening f.closing f.suffix fun enclosing => do
    return f.merge (← f.parts.mapM (part enclosing))

namespace TypeStore

variable {s : TypeStore} {n : Nat} {enclosing : Enclosing}

theorem mapM_arrows {print : TypeId → Printer String} {arrows : List Arrow} :
    (arrows.mapM fun arrow => do
      let arguments ← print arrow.arguments
      let result ← print arrow.result
      return s!"{arguments} -> {result}") =
    arrowTexts <$> (arrows.flatMap fun arrow => [arrow.arguments, arrow.result]).mapM print := by
  induction arrows with
  | nil => rfl
  | cons arrow arrows ih =>
    rw [List.mapM_cons, ih]
    simp [arrowTexts]

theorem printWithin_succ {id : TypeId} :
    s.printWithin (n + 1) enclosing id = (s.face id).write (s.printWithin n) enclosing := by
  rw [printWithin, face]
  cases s.get id with
  | list d => simp [Face.write]
  | tuple d => rfl
  | union types => rfl
  | function f =>
    simp only [arrowsFace]
    generalize ((s.function? (s.originOf id)).map (·.arrows)).getD [] = arrows
    cases arrows with
    | nil => rfl
    | cons arrow arrows =>
      simp only [Face.write]
      congr 1
      funext enclosing
      rw [mapM_arrows]
      simp
  | _ => rfl

end TypeStore

/-! ### What is written -/

/-- What is written of a type: a word, a back reference, or a frame with its number, whether it is
labelled, and what is written inside. -/
inductive Writing
  | word (text : String)
  | back (key : TypeId) (number : Nat)
  | framed (frame : TypeFrame) (number : Nat) (isUsed : Bool) (parts : List Writing)

namespace Writing

mutual

def text : Writing → String
  | word t => t
  | back _ number => s!"#{number}"
  | framed f number isUsed parts => f.text number isUsed (texts parts)

def texts : List Writing → List String
  | [] => []
  | w :: ws => text w :: texts ws

end

/-- Every back reference is to a type that is written around it, by its number. -/
inductive Scoped : Enclosing → Writing → Prop
  | word {enclosing : Enclosing} {t : String} : Scoped enclosing (word t)
  | back {enclosing : Enclosing} {key : TypeId} {number : Nat} (around : (key, number) ∈ enclosing) :
      Scoped enclosing (back key number)
  | framed {enclosing : Enclosing} {f : TypeFrame} {number : Nat} {isUsed : Bool} {parts : List Writing}
      (inside : ∀ w ∈ parts, Scoped ((f.key, number) :: enclosing) w) :
      Scoped enclosing (framed f number isUsed parts)

/-- There is neither a back reference nor a label. -/
inductive Plain : Writing → Prop
  | word {t : String} : Plain (word t)
  | framed {f : TypeFrame} {number : Nat} {parts : List Writing} (inside : ∀ w ∈ parts, Plain w) :
      Plain (framed f number false parts)

end Writing

namespace TypeStore

/-- Types are written one after another, inside of others. A type that is being written is referred to
by its number; another one gets the next number, and a label if it has been referred to behind it. -/
inductive Writes (s : TypeStore) :
    Enclosing → Labels → List TypeId → List Writing → Labels → Prop
  | done {enclosing : Enclosing} {labels : Labels} : Writes s enclosing labels [] [] labels
  | word {enclosing : Enclosing} {labels after : Labels} {id : TypeId} {ids : List TypeId}
      {t : String} {ws : List Writing} (face : s.face id = .word t)
      (others : Writes s enclosing labels ids ws after) :
      Writes s enclosing labels (id :: ids) (.word t :: ws) after
  | back {enclosing : Enclosing} {labels after : Labels} {id : TypeId} {ids : List TypeId} {f : TypeFrame}
      {number : Nat} {ws : List Writing} (face : s.face id = .framed f)
      (around : enclosing.lookup f.key = some number)
      (others : Writes s enclosing { labels with used := f.key :: labels.used } ids ws after) :
      Writes s enclosing labels (id :: ids) (.back f.key number :: ws) after
  | framed {enclosing : Enclosing} {labels inner after : Labels} {id : TypeId} {ids : List TypeId}
      {f : TypeFrame} {parts ws : List Writing} (face : s.face id = .framed f)
      (new : enclosing.lookup f.key = none)
      (inside : Writes s ((f.key, labels.count + 1) :: enclosing)
        { labels with count := labels.count + 1 } f.parts parts inner)
      (others : Writes s enclosing { inner with used := inner.used.filter (· ≠ f.key) } ids ws after) :
      Writes s enclosing labels (id :: ids)
        (.framed f (labels.count + 1) (inner.used.contains f.key) parts :: ws) after

/-- Types are written one after another without any record of what is being written. -/
inductive Renders (s : TypeStore) : List TypeId → List String → Prop
  | done : Renders s [] []
  | word {id : TypeId} {ids : List TypeId} {t : String} {ts : List String}
      (face : s.face id = .word t) (others : Renders s ids ts) : Renders s (id :: ids) (t :: ts)
  | framed {id : TypeId} {ids : List TypeId} {f : TypeFrame} {parts ts : List String}
      (face : s.face id = .framed f) (inside : Renders s f.parts parts) (others : Renders s ids ts) :
      Renders s (id :: ids) (f.plainText parts :: ts)

/-- The types that are written directly inside of a type. -/
def written (s : TypeStore) (id : TypeId) : List TypeId :=
  match s.face id with
  | .word _ => []
  | .framed f => f.parts

/-- The second type is the first or is written inside of it, at any depth. -/
abbrev Reaches (s : TypeStore) : TypeId → TypeId → Prop :=
  Relation.ReflTransGen fun x y => y ∈ s.written x

/-- No type that is reached is written inside of itself. -/
def Acyclic (s : TypeStore) (id : TypeId) : Prop :=
  ∀ x, s.Reaches id x → ¬ Relation.TransGen (fun x y => y ∈ s.written x) x x

variable {s : TypeStore} {n : Nat} {enclosing : Enclosing} {labels after : Labels} {id : TypeId}
  {ids : List TypeId} {ws : List Writing} {f : TypeFrame}

theorem Writes.cons (first : s.Writes enclosing labels [id] [w] between)
    (others : s.Writes enclosing between ids ws after) :
    s.Writes enclosing labels (id :: ids) (w :: ws) after := by
  cases first with
  | word face rest => cases rest; exact .word face others
  | back face around rest => cases rest; exact .back face around others
  | framed face new inside rest => cases rest; exact .framed face new inside others

/-- The frame that belongs to a key. -/
def frameOf (s : TypeStore) (key : TypeId) : Face :=
  match s.get key with
  | .function _ => s.arrowsFace key
  | _ => s.face key

/-- A frame is known by its key: types share one only if they are bound from one function. -/
theorem frameOf_key (face : s.face id = .framed f) : s.frameOf f.key = .framed f := by
  have whole := face
  unfold TypeStore.face at face
  split at face
  case h_13 | h_14 | h_15 =>
    next found =>
    cases face
    simpa [frameOf, found] using whole
  case h_16 =>
    cases owner : s.get (s.originOf id) with
    | function g =>
      have key : f.key = s.originOf id := by
        unfold arrowsFace at face
        split at face <;> cases face
        rfl
      simpa [frameOf, key, owner] using face
    | _ => simp [arrowsFace, function?, owner] at face
  all_goals cases face

theorem key_inRange (face : s.face id = .framed f) : f.key.index < s.size := by
  apply Nat.lt_of_not_le
  intro outside
  have framed := frameOf_key face
  simp [frameOf, TypeStore.face, get_of_le outside] at framed

theorem Writes.scoped (writes : s.Writes enclosing labels ids ws after) :
    ∀ w ∈ ws, w.Scoped enclosing := by
  induction writes with
  | done => simp
  | word _ _ ih => exact List.forall_mem_cons.mpr ⟨.word, ih⟩
  | back _ around _ ih =>
    obtain ⟨before, behind, rfl, -⟩ := List.lookup_eq_some_iff.mp around
    exact List.forall_mem_cons.mpr ⟨.back (by simp), ih⟩
  | framed _ _ _ _ inside ih => exact List.forall_mem_cons.mpr ⟨.framed inside, ih⟩

theorem labelled_known (around : enclosing.lookup id = some number) :
    (Printer.labelled enclosing id opening closing suffix body).run labels =
      (s!"#{number}", { labels with used := id :: labels.used }) := by
  simp only [Printer.labelled, around]
  rfl

theorem labelled_new {inner : Labels} (new : enclosing.lookup f.key = none)
    (written : (body ((f.key, labels.count + 1) :: enclosing)).run
      { labels with count := labels.count + 1 } = (text, inner)) :
    (Printer.labelled enclosing f.key f.opening f.closing f.suffix body).run labels =
      (f.opening ++ text ++ f.label (labels.count + 1) (inner.used.contains f.key) ++ f.closing,
        { inner with used := inner.used.filter (· ≠ f.key) }) := by
  simp only [Printer.labelled, new]
  let finish (r : String × Labels) : String × Labels :=
    (f.opening ++ r.1 ++ f.label (labels.count + 1) (r.2.used.contains f.key) ++ f.closing,
      { r.2 with used := r.2.used.filter (· ≠ f.key) })
  exact congrArg finish written

theorem writes_mapM {print : TypeId → Printer String}
    (single : ∀ labels id, ∃ w after, s.Writes enclosing labels [id] [w] after ∧
      (print id).run labels = (w.text, after)) (labels : Labels) (ids : List TypeId) :
    ∃ ws after, s.Writes enclosing labels ids ws after ∧
      (ids.mapM print).run labels = (Writing.texts ws, after) := by
  induction ids generalizing labels with
  | nil => exact ⟨[], labels, .done, rfl⟩
  | cons id ids ih =>
    obtain ⟨w, between, first, run⟩ := single labels id
    obtain ⟨ws, after, others, run'⟩ := ih between
    refine ⟨w :: ws, after, first.cons others, ?_⟩
    rw [List.mapM_cons, StateT.run_bind, run]
    show (do let rest ← ids.mapM print; return w.text :: rest : Printer (List String)).run between = _
    rw [StateT.run_bind, run', Writing.texts]
    rfl

theorem length_le_size (distinct : (enclosing.map (·.1)).Nodup)
    (inStore : ∀ p ∈ enclosing, p.1.index < s.size) : enclosing.length ≤ s.size := by
  have subset : enclosing.map (·.1) ⊆ (List.range s.size).map TypeId.mk := by
    intro key member
    obtain ⟨p, inside, rfl⟩ := List.mem_map.mp member
    exact List.mem_map.mpr ⟨p.1.index, List.mem_range.mpr (inStore p inside), rfl⟩
  simpa using (List.subperm_of_subset distinct subset).length_le

theorem writes_printWithin (distinct : (enclosing.map (·.1)).Nodup)
    (inStore : ∀ p ∈ enclosing, p.1.index < s.size) (room : s.size < n + enclosing.length) :
    ∃ w after, s.Writes enclosing labels [id] [w] after ∧
      (s.printWithin n enclosing id).run labels = (w.text, after) := by
  induction n generalizing enclosing labels id with
  | zero =>
    have := length_le_size distinct inStore
    omega
  | succ n ih =>
    rw [printWithin_succ]
    cases face : s.face id with
    | word t => exact ⟨.word t, labels, .word face .done, rfl⟩
    | framed f =>
      cases around : enclosing.lookup f.key with
      | some number =>
        refine ⟨.back f.key number, _, .back face around .done, ?_⟩
        rw [Face.write, labelled_known around, Writing.text]
      | none =>
        have single : ∀ labels' id, ∃ w after,
            s.Writes ((f.key, labels.count + 1) :: enclosing) labels' [id] [w] after ∧
            (s.printWithin n ((f.key, labels.count + 1) :: enclosing) id).run labels' =
              (w.text, after) := by
          intro labels' id
          apply ih
          · refine List.nodup_cons.mpr ⟨fun member => ?_, distinct⟩
            obtain ⟨p, inside, same⟩ := List.mem_map.mp member
            simpa [same] using List.lookup_eq_none_iff.mp around p inside
          · exact List.forall_mem_cons.mpr ⟨key_inRange face, inStore⟩
          · rw [List.length_cons]
            omega
        obtain ⟨parts, inner, inside, run⟩ :=
          writes_mapM single { labels with count := labels.count + 1 } f.parts
        refine ⟨.framed f (labels.count + 1) _ parts, _, .framed face around inside .done, ?_⟩
        have body : ((do return f.merge (← f.parts.mapM
            (s.printWithin n ((f.key, labels.count + 1) :: enclosing))) : Printer String)).run
            { labels with count := labels.count + 1 } = (f.merge (Writing.texts parts), inner) := by
          rw [StateT.run_bind, run]
          rfl
        rw [Face.write, labelled_new around body, Writing.text]
        rfl

/-! ### Types that do not contain themselves -/

theorem mem_written (face : s.face id = .framed f) : x ∈ s.written id ↔ x ∈ f.parts := by
  rw [written, face]

theorem Writes.plain (writes : s.Writes enclosing labels ids ws after) (unused : labels.used = [])
    (acyclic : ∀ id ∈ ids, s.Acyclic id)
    (apart : ∀ id ∈ ids, ∀ x, s.Reaches id x → ∀ g, s.face x = .framed g →
      enclosing.lookup g.key = none) :
    after.used = [] ∧ (∀ w ∈ ws, w.Plain) ∧ s.Renders ids (Writing.texts ws) := by
  induction writes with
  | done => exact ⟨unused, by simp, .done⟩
  | word face _ ih =>
    rw [List.forall_mem_cons] at acyclic apart
    obtain ⟨unused', plain, renders⟩ := ih unused acyclic.2 apart.2
    exact ⟨unused', List.forall_mem_cons.mpr ⟨.word, plain⟩, .word face renders⟩
  | back face around _ _ =>
    rw [List.forall_mem_cons] at apart
    cases around.symm.trans (apart.1 _ .refl _ face)
  | @framed enclosing labels inner after id ids f parts ws face new _ _ inside ih =>
    rw [List.forall_mem_cons] at acyclic apart
    have path : ∀ p ∈ f.parts, ∀ x, s.Reaches p x → s.Reaches id x := fun p member x =>
      .head ((mem_written face).mpr member)
    have apart' : ∀ p ∈ f.parts, ∀ x, s.Reaches p x → ∀ g, s.face x = .framed g →
        ((f.key, labels.count + 1) :: enclosing).lookup g.key = none := by
      intro p member x further g face'
      have other : g.key ≠ f.key := by
        intro same
        -- The type would be written inside of itself, by way of the part.
        have frames := (frameOf_key face').symm.trans (same ▸ frameOf_key face)
        cases frames
        exact acyclic.1 x (path p member x further) (.head' ((mem_written face').mpr member) further)
      rw [List.lookup_cons, beq_false_of_ne other]
      exact apart.1 x (path p member x further) g face'
    obtain ⟨unused', plain, renders⟩ := inside unused
      (fun p member x further => acyclic.1 x (path p member x further)) apart'
    have unlabelled : inner.used.contains f.key = false := by simp [unused']
    obtain ⟨unused'', plain', renders'⟩ := ih (by simp [unused']) acyclic.2 apart.2
    rw [unlabelled]
    refine ⟨unused'', List.forall_mem_cons.mpr ⟨.framed plain, plain'⟩, ?_⟩
    rw [Writing.texts, Writing.text, TypeFrame.text_unlabelled]
    exact .framed face renders renders'

theorem Renders.unique (renders : s.Renders ids ts) (renders' : s.Renders ids us) : ts = us := by
  induction renders generalizing us with
  | done => cases renders'; rfl
  | word face _ ih =>
    cases renders' with
    | word face' others => cases face.symm.trans face'; rw [ih others]
    | framed face' => cases face.symm.trans face'
  | framed face _ _ inside ih =>
    cases renders' with
    | word face' => cases face.symm.trans face'
    | framed face' inside' others => cases face.symm.trans face'; rw [inside inside', ih others]

theorem Writes.unique (writes : s.Writes enclosing labels ids ws after)
    (writes' : s.Writes enclosing labels ids vs after') : ws = vs ∧ after = after' := by
  induction writes generalizing vs after' with
  | done => cases writes'; exact ⟨rfl, rfl⟩
  | word face _ ih =>
    cases writes' with
    | word face' others =>
      cases face.symm.trans face'
      obtain ⟨rfl, rfl⟩ := ih others
      exact ⟨rfl, rfl⟩
    | back face' => cases face.symm.trans face'
    | framed face' => cases face.symm.trans face'
  | back face around _ ih =>
    cases writes' with
    | word face' => cases face.symm.trans face'
    | back face' around' others =>
      cases face.symm.trans face'
      cases around.symm.trans around'
      obtain ⟨rfl, rfl⟩ := ih others
      exact ⟨rfl, rfl⟩
    | framed face' new =>
      cases face.symm.trans face'
      cases around.symm.trans new
  | framed face new _ _ inside ih =>
    cases writes' with
    | word face' => cases face.symm.trans face'
    | back face' around =>
      cases face.symm.trans face'
      cases new.symm.trans around
    | framed face' _ inside' others =>
      cases face.symm.trans face'
      obtain ⟨rfl, rfl⟩ := inside inside'
      obtain ⟨rfl, rfl⟩ := ih others
      exact ⟨rfl, rfl⟩

/-- Writing a type comes to an end: the rules lead to one text, which is the one displayed. Every back
reference in it has the number of a type that is written around it. A type in which no type contains
itself is written without back references and labels, as if no record was kept. -/
theorem display_writes (s : TypeStore) (id : TypeId) :
    (s.FiniteOrigins → ∀ a, ∃ n, s.Leads n a (s.originOf a)) ∧
    ∃ w after, (∀ ws labels, s.Writes [] {} [id] ws labels ↔ ws = [w] ∧ labels = after) ∧
      s.display id = w.text ∧ w.Scoped [] ∧
      (s.Acyclic id → w.Plain ∧ ∀ text, s.Renders [id] [text] ↔ text = s.display id) := by
  constructor
  · intro finite a
    obtain ⟨n, o, leads⟩ := finite a
    exact ⟨n, leads.originOf ▸ leads⟩
  · obtain ⟨w, after, writes, run⟩ : ∃ w after, s.Writes [] {} [id] [w] after ∧
        (s.printWithin (s.size + 2) [] id).run {} = (w.text, after) :=
      writes_printWithin List.nodup_nil (by simp) (by simp)
    have shown : s.display id = w.text := congrArg Prod.fst run
    refine ⟨w, after, fun ws labels => ⟨fun other => ?_, ?_⟩, shown, writes.scoped w (by simp), ?_⟩
    · obtain ⟨rfl, rfl⟩ := writes.unique other
      exact ⟨rfl, rfl⟩
    · rintro ⟨rfl, rfl⟩
      exact writes
    · intro acyclic
      obtain ⟨-, plain, renders⟩ := writes.plain rfl (by simpa using acyclic) (by simp)
      refine ⟨plain w (by simp), fun text => ⟨fun other => ?_, ?_⟩⟩
      · rw [shown]
        exact (List.cons.inj (other.unique renders)).1
      · rintro rfl
        rw [shown]
        exact renders

/-- A list that two places of a tuple share, a function with two arrows that look the same, and a method
bound from it. -/
def sharedList : TypeStore :=
  ⟨initial.types ++ #[.list ⟨.int, [], [], ⟨0⟩⟩, .tuple ⟨[⟨10⟩, ⟨10⟩], ⟨0⟩⟩,
    .tuple ⟨[⟨10⟩, ⟨10⟩], ⟨0⟩⟩,
    .function { name := "f", arrows := [⟨⟨11⟩, ⟨10⟩⟩, ⟨⟨12⟩, ⟨10⟩⟩], table := ⟨0⟩, env := ⟨0⟩ },
    .function { name := "f", origin := some ⟨13⟩, table := ⟨0⟩, env := ⟨0⟩ }]⟩

theorem acyclic_of_lt (lower : ∀ x, ∀ y ∈ s.written x, y.index < x.index) : s.Acyclic id := by
  intro x _ cycle
  have descends : ∀ y, Relation.TransGen (fun x y => y ∈ s.written x) x y → y.index < x.index := by
    intro y path
    induction path with
    | single step => exact lower _ _ step
    | tail _ step ih => exact Nat.lt_trans (lower _ _ step) ih
  exact Nat.lt_irrefl _ (descends x cycle)

theorem sharedList_plain : sharedList.FiniteOrigins ∧ sharedList.Leads 1 ⟨14⟩ ⟨13⟩ ∧
    (∃ n, sharedList.Leads n ⟨14⟩ (sharedList.originOf ⟨14⟩)) ∧ sharedList.Acyclic ⟨14⟩ ∧
    (∀ text, sharedList.Renders [⟨14⟩] [text] ↔ text = sharedList.display ⟨14⟩) ∧
    sharedList.display ⟨14⟩ = "([int], [int]) -> [int]" := by
  have leads : sharedList.Leads 1 ⟨14⟩ ⟨13⟩ := .bound rfl (by decide) (.own fun o => nofun)
  have finite : sharedList.FiniteOrigins := by
    rintro ⟨i⟩
    by_cases inRange : i < sharedList.size
    · have checked : ∀ i < sharedList.size, i = 14 ∨ sharedList.origin? ⟨i⟩ = none := by decide
      rcases checked i inRange with rfl | own
      · exact ⟨1, ⟨13⟩, leads⟩
      · exact ⟨0, ⟨i⟩, .own fun o found => nomatch own.symm.trans found⟩
    · refine ⟨0, ⟨i⟩, .own fun o found => ?_⟩
      simp [origin?, function?, get_of_le (Nat.not_lt.mp inRange)] at found
  have acyclic : sharedList.Acyclic ⟨14⟩ := by
    apply acyclic_of_lt
    intro x
    by_cases inRange : x.index < sharedList.size
    · have checked : ∀ i < sharedList.size, ∀ y ∈ sharedList.written ⟨i⟩, y.index < i := by decide
      exact checked x.index inRange
    · simp [written, face, get_of_le (Nat.not_lt.mp inRange)]
  obtain ⟨origins, w, after, -, -, -, plain⟩ := display_writes sharedList ⟨14⟩
  exact ⟨finite, leads, origins finite ⟨14⟩, acyclic, (plain acyclic).2, by decide +kernel⟩

end TypeStore
end FlowTypes
