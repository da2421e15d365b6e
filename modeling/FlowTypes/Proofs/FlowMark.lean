import FlowTypes.Proofs.TypeMap

/-! Where the mark of a block's end can be found. The flow of a block is kept in the same store as the
types of names, and it may be a union that has the mark among its alternatives. Main statement: no
path through the store leads from anything that a program can hold to the mark. -/
namespace FlowTypes

open Relation (ReflTransGen)

namespace Ty

/-- The types that a container holds. -/
def components : Ty → List TypeId
  | list d => d.element :: d.positional
  | dict d => [d.key, d.value]
  | tuple d => d.elements
  | _ => []

variable {t : Ty} {m : TypeId}

theorem mentions_of_components (member : m ∈ t.components) : m ∈ t.mentions := by
  cases t with
  | list | dict | tuple => exact member
  | _ => cases member

theorem mem_references_iff : m ∈ t.references ↔
    m ∈ t.mentions ∨ (∃ types, t = .union types ∧ m ∈ types) ∨
      ∃ f, t = .function f ∧ f.origin = some m := by
  cases t with
  | union types => simp [references, mentions]
  | function f => simp [references, mentions, or_comm]
  | _ => simp [references]

end Ty

namespace TypeStore

variable {s : TypeStore} {a b : TypeId}

/-- The mark cannot be reached from a type, however far one follows what the types refer to. -/
def Unmarked (s : TypeStore) (a : TypeId) : Prop :=
  ∀ b, ReflTransGen (fun x y => y ∈ (s.get x).references) a b → s.get b ≠ .cont

theorem Sound.value_link (sound : Sound Value s) (value : s.Value a) (link : b ∈ (s.get a).references) :
    s.Value b := by
  rcases Ty.mem_references_iff.mp link with mention | ⟨types, found, member⟩ | ⟨f, found, origin⟩
  · exact sound.mention rfl mention
  · exact sound.alternatives value b (by rwa [alternatives_of_union found])
  · obtain ⟨g, found, -, -⟩ := sound.origin found origin
    exact value_of_plain (has_of_get (by simp [found])) (by simp [isUnion, found]) (by simp [found])

theorem Sound.unmarked (sound : Sound Value s) (value : s.Value a) : s.Unmarked a := by
  intro b path
  suffices s.Value b from this.ne_cont
  induction path with
  | refl => exact value
  | tail _ link ih => exact sound.value_link ih link

/-- What a type of the store refers to is unmarked, even if the type is the flow of a block. -/
theorem Sound.unmarked_mention (sound : Sound Value s) (mention : b ∈ (s.get a).mentions) :
    s.Unmarked b :=
  sound.unmarked (sound.mention rfl mention)

end TypeStore

namespace State

variable {s : State} {node : NodeId} {type : TypeId}

theorem mem_sourceBindings (member : b ∈ s.sourceBindings) : b ∈ s.bindings.bindings :=
  Array.mem_toList_iff.mp (List.mem_filter.mp member).1

theorem Valid.typeMap (valid : s.Valid) (shown : s.typeMap.get? node = some type) :
    s.Value type := by
  rw [get?_typeMap, Option.or_eq_some_iff] at shown
  rcases shown with introduced | ⟨-, recorded⟩
  · obtain ⟨b, last, rfl⟩ := Option.map_eq_some_iff.mp introduced
    have member : b ∈ s.introducedAt node := List.mem_of_getLast? last
    exact valid.bindings b (mem_sourceBindings (List.mem_filter.mp member).1)
  · exact valid.nodeTypes type (InsertionMap.mem_values_of_get? recorded)

end State

/-- After any calls of a session the mark of a block's end cannot be reached from the type of a
binding, from a type that is recorded or shown for a node, from the arguments or the result of an
arrow, or from what a list, a dictionary or a tuple holds. -/
theorem Session.mark_unreachable {s : State} (session : Session s) :
    (∀ b ∈ s.bindings.bindings, s.types.Unmarked b.type) ∧
    (∀ node type, s.nodeTypes.get? node = some type ∨ s.typeMap.get? node = some type →
      s.types.Unmarked type) ∧
    (∀ fn f, s.types.get fn = .function f → ∀ arrow ∈ f.arrows,
      s.types.Unmarked arrow.arguments ∧ s.types.Unmarked arrow.result) ∧
    ∀ container, ∀ part ∈ (s.types.get container).components, s.types.Unmarked part := by
  have valid : s.Valid := session.called.valid State.initial_valid
  have sound := valid.heap.sound
  refine ⟨fun b member => ?_, fun node type known => ?_, fun fn f found arrow member => ?_,
    fun container part member => ?_⟩
  · exact sound.unmarked (valid.bindings b member)
  · rcases known with recorded | shown
    · exact sound.unmarked (valid.nodeTypes type (InsertionMap.mem_values_of_get? recorded))
    · exact sound.unmarked (valid.typeMap shown)
  · obtain ⟨arguments, result⟩ := sound.arrow found member
    exact ⟨sound.unmarked arguments, sound.unmarked result⟩
  · exact sound.unmarked_mention (Ty.mentions_of_components member)

/-- A function that may come to the end of its body without a `return`, and whose result is put into a
list. -/
def partialReturn : FileSystem :=
  (MemoryTree.file {} "a.py" "def f(x):\n if x:return 1\nr=[f(2)]").fileSystem

theorem partialReturn_types : ∃ s s' answer, Session s ∧
    (Call.finish.run (Walker.of partialReturn {})).run s = .ok (answer, s') ∧
    ((List.range s'.types.size).any fun i => (s'.types.get ⟨i⟩).references.contains .cont) = true ∧
    ((List.range s'.types.size).any fun i => (s'.types.get ⟨i⟩).components.any s'.types.isUnion) =
      true :=
  Session.exists_whole _ (by decide +kernel)

/-- The flow of the body is a union with the mark, and the list holds what is left of it. -/
theorem partialReturn_mark_unreachable : ∃ s, Session s ∧
    (∃ flow, TypeId.cont ∈ (s.types.get flow).references) ∧
    ∃ list, ∃ part ∈ (s.types.get list).components, s.types.isUnion part = true ∧
      s.types.Unmarked part := by
  obtain ⟨_, s, _, before, finished, marked, held⟩ := partialReturn_types
  obtain ⟨flow, -, marked⟩ := List.any_eq_true.mp marked
  obtain ⟨list, -, held⟩ := List.any_eq_true.mp held
  obtain ⟨part, member, union⟩ := List.any_eq_true.mp held
  have session : Session s := .call before finished
  obtain ⟨-, -, -, unmarked⟩ := session.mark_unreachable
  exact ⟨s, session, ⟨⟨flow⟩, List.contains_iff_mem.mp marked⟩, ⟨list⟩, part, member, union,
    unmarked ⟨list⟩ part member⟩

end FlowTypes
