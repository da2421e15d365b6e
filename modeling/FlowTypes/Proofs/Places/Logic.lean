import FlowTypes.Grammar.Cursor
import FlowTypes.Proofs.Respelling
import Mathlib.Data.List.Forall2

/-! Places play no part in whether a text can be read, nor do the identities of nodes. The same text is
read twice, from files of different names and with different identities for its nodes; both times the
same tokens are found, and both times they are accepted or refused. -/
namespace FlowTypes

/-- What a token is, without its place. -/
def Token.spelling (t : Token) : Kind × String := (t.kind, t.value)

theorem Token.spelling_headD {tokens tokens' : List Token}
    (same : tokens'.map spelling = tokens.map spelling) (last : t'.spelling = t.spelling) :
    (tokens'.headD t').spelling = (tokens.headD t).spelling := by
  have heads := congrArg (List.headD · t.spelling) same
  cases tokens <;> cases tokens' <;> simp at same heads ⊢
  · exact last
  · exact heads

/-- The name of its file is not part of what a token is. -/
theorem outcome_tokenize : Outcome (fun tokens tokens' : Array Token =>
      tokens'.toList.map Token.spelling = tokens.toList.map Token.spelling)
      (tokenize source file) (tokenize source file') := by
  have start : Lexer.InStep Eq (fun _ value => value) { file, rest := source.toList }
      { file := file', rest := source.toList } := ⟨⟨rfl, rfl, rfl, rfl⟩, rfl⟩
  exact (start.run fun _ _ _ same => same ▸ .refl).map fun _ _ inStep => inStep.toAlike.finish

/-! ### Readers -/

namespace Cursor

/-- The same tokens are left, whatever their places and the identities still free. -/
structure Alike (c d : Cursor) : Prop where
  rest : d.rest.map Token.spelling = c.rest.map Token.spelling
  last : d.last.spelling = c.last.spelling
  previous : d.previous.spelling = c.previous.spelling

namespace Alike

variable {c d : Cursor}

theorem length (alike : c.Alike d) : d.rest.length = c.rest.length := by
  simpa using congrArg List.length alike.rest

theorem current (alike : c.Alike d) : d.current.spelling = c.current.spelling :=
  Token.spelling_headD alike.rest alike.last

theorem kind (alike : c.Alike d) : d.kind = c.kind := congrArg Prod.fst alike.current

theorem value (alike : c.Alike d) : d.current.value = c.current.value :=
  congrArg Prod.snd alike.current

theorem isNameLike (alike : c.Alike d) : d.current.isNameLike = c.current.isNameLike := by
  unfold Token.isNameLike
  rw [alike.value, show d.current.kind = c.current.kind from alike.kind]

theorem peek (alike : c.Alike d) (n : Nat) : d.peek n = c.peek n := by
  have same := congrArg (fun rest : List (Kind × String) => rest[n]?) alike.rest
  simp only [List.getElem?_map] at same
  unfold Cursor.peek
  cases h : c.rest[n]? <;> cases h' : d.rest[n]? <;> simp [h, h'] at same ⊢
  · exact congrArg Prod.fst alike.last
  · exact congrArg Prod.fst same

theorem tail (alike : c.Alike d) : Alike { c with rest := c.rest.tail, previous := c.current }
      { d with rest := d.rest.tail, previous := d.current } :=
  ⟨by simpa using congrArg List.tail alike.rest, alike.last, alike.current⟩

theorem hasTokens (alike : c.Alike d) : d.hasTokens = c.hasTokens := by
  unfold Cursor.hasTokens
  rw [alike.length, alike.kind]

end Alike

theorem alike_ofTokens (same : tokens'.map Token.spelling = tokens.map Token.spelling) :
    (ofTokens tokens file first).Alike (ofTokens tokens' file' first') := by
  have closing : (closing tokens' file').spelling = (closing tokens file).spelling := rfl
  have last := congrArg List.getLast? same
  rw [List.getLast?_map, List.getLast?_map] at last
  unfold ofTokens
  cases h : tokens.getLast? with
  | none =>
    rw [h, Option.map_none, Option.map_eq_none_iff] at last
    rw [last]
    exact ⟨by simp [closing], closing, closing⟩
  | some t =>
    rw [h, Option.map_some, Option.map_eq_some_iff] at last
    obtain ⟨t', h', spelled⟩ := last
    rw [h']
    have kinds : t'.kind = t.kind := congrArg Prod.fst spelled
    dsimp only
    rw [kinds]
    split
    · exact ⟨same, spelled, Token.spelling_headD same spelled⟩
    · have extended : (tokens' ++ [Cursor.closing tokens' file']).map Token.spelling =
          (tokens ++ [Cursor.closing tokens file]).map Token.spelling := by
        simp only [List.map_append, same, List.map_cons, closing]
      exact ⟨extended, closing, Token.spelling_headD extended closing⟩

end Cursor

/-- Two readers accept the same tokens and give related things, whatever the places are. -/
def Parallel {α β : Type} (R : α → β → Prop) (m : Parser α) (m' : Parser β) : Prop :=
  ∀ c d, c.Alike d → Outcome (fun p q => R p.1 q.1 ∧ p.2.Alike q.2) (m c) (m' d)

namespace Parallel

variable {α β α' β' : Type} {R : α → β → Prop} {Q : α' → β' → Prop}

theorem pure {a : α} {b : β} (related : R a b) : Parallel R (pure a) (pure b) :=
  fun _ _ alike => .read ⟨related, alike⟩

theorem given {f : α → Parser α'} {g : β → Parser β'} (rest : Parallel Q (f a) (g b)) :
    Parallel Q (Pure.pure a >>= f) (Pure.pure b >>= g) := rest

theorem fails (first : ∀ c, ∃ e, m c = .error e) (second : ∀ c, ∃ e, m' c = .error e) :
    Parallel R m m' := by
  intro c d _
  obtain ⟨e, h⟩ := first c
  obtain ⟨e', h'⟩ := second d
  rw [h, h']
  exact .failed e e'

theorem bind (first : Parallel R m m') (next : ∀ a b, R a b → Parallel Q (f a) (g b)) :
    Parallel Q (m >>= f) (m' >>= g) := fun c d alike =>
  (first c d alike).bind fun p q related => next p.1 q.1 related.1 p.2 q.2 related.2

theorem bindEq (first : Parallel Eq m m') (next : ∀ a, Parallel Q (f a) (g a)) :
    Parallel Q (m >>= f) (m' >>= g) :=
  first.bind fun a _ same => same ▸ next a

theorem look (next : ∀ c d, c.Alike d → Parallel Q (f c) (g d)) :
    Parallel Q (get >>= f) (get >>= g) := fun c d alike => next c d alike c d alike

/-- Something is read in one of two ways, and both go on in the same way. -/
theorem choose [Decidable P] (first : Parallel R m m') (second : Parallel R n n')
    (next : ∀ a b, R a b → Parallel Q (f a) (g b)) :
    Parallel Q (if P then m >>= f else n >>= f) (if P then m' >>= g else n' >>= g) := by
  split
  · exact first.bind next
  · exact second.bind next

theorem skipIf [Decidable P] (first : Parallel R m m') (next : Parallel Q n n') :
    Parallel Q (if P then m >>= fun _ => n else n) (if P then m' >>= fun _ => n' else n') := by
  split
  · exact first.bind fun _ _ _ => next
  · exact next

theorem map (first : Parallel R m m') (related : ∀ a b, R a b → Q (f a) (g b)) :
    Parallel Q (f <$> m) (g <$> m') :=
  first.bind fun a b h => Parallel.pure (related a b h)

end Parallel

namespace Parser

theorem parallel_fail : Parallel R fail fail :=
  .fails (fun _ => ⟨_, rfl⟩) fun _ => ⟨_, rfl⟩

theorem parallel_failBecause : Parallel R (failBecause message) (failBecause message) :=
  .fails (fun _ => ⟨_, rfl⟩) fun _ => ⟨_, rfl⟩

theorem parallel_exhausted : Parallel R exhausted exhausted :=
  .fails (fun _ => ⟨_, rfl⟩) fun _ => ⟨_, rfl⟩

theorem parallel_kind : Parallel Eq kind kind :=
  .look fun _ _ alike => .pure alike.kind.symm

theorem parallel_atKind : Parallel Eq (atKind k) (atKind k) :=
  .look fun _ _ alike => .pure (by rw [alike.kind])

theorem parallel_advance : Parallel (fun t t' => t'.spelling = t.spelling) advance advance :=
  fun _ _ alike => .read ⟨alike.current, alike.tail⟩

theorem parallel_expect :
    Parallel (fun t t' => t'.spelling = t.spelling) (expect k) (expect k) := by
  refine .bindEq parallel_atKind fun there => ?_
  split
  · exact parallel_advance
  · exact parallel_fail

theorem parallel_expectBecause :
    Parallel (fun t t' => t'.spelling = t.spelling) (expectBecause k message)
      (expectBecause k message) := by
  refine .bindEq parallel_atKind fun there => ?_
  split
  · exact parallel_advance
  · exact parallel_failBecause

theorem parallel_accept : Parallel Eq (accept k) (accept k) := by
  refine .bindEq parallel_atKind fun there => ?_
  split
  · exact parallel_advance.bind fun _ _ _ => .pure rfl
  · exact .pure rfl

theorem parallel_nodeAt : Parallel (fun _ _ => True) (nodeAt span) (nodeAt span') :=
  fun _ _ alike => .read ⟨trivial, alike.rest, alike.last, alike.previous⟩

theorem parallel_nodeFrom : Parallel (fun _ _ => True) (nodeFrom start) (nodeFrom start') :=
  .look fun _ _ _ => parallel_nodeAt

theorem parallel_make {α β : Type} {R : α → β → Prop} {make : Node → α} {make' : Node → β}
    (related : ∀ n n', R (make n) (make' n')) :
    Parallel R (do return make (← nodeFrom start)) (do return make' (← nodeFrom start')) :=
  parallel_nodeFrom.bind fun n n' _ => .pure (related n n')

/-- Both ask for another round, or both are done. -/
inductive Round.Alike {σ σ' ρ ρ' : Type} (S : σ → σ' → Prop) (R : ρ → ρ' → Prop) :
    Round σ ρ → Round σ' ρ' → Prop
  | again {s : σ} {s' : σ'} (related : S s s') : Alike S R (.again s) (.again s')
  | done {r : ρ} {r' : ρ'} (related : R r r') : Alike S R (.done r) (.done r')

section

variable {σ σ' ρ ρ' : Type} {S : σ → σ' → Prop} {R : ρ → ρ' → Prop}
  {step : σ → Parser (Round σ ρ)} {step' : σ' → Parser (Round σ' ρ')}

theorem parallel_rounds (steps : ∀ s s', S s s' → Parallel (Round.Alike S R) (step s) (step' s'))
    (n : Nat) (related : S s s') : Parallel R (rounds step n s) (rounds step' n s') := by
  induction n generalizing s s' with
  | zero => exact parallel_exhausted
  | succ n ih =>
    refine (steps s s' related).bind fun round round' alike => ?_
    cases alike with
    | again related => exact ih related
    | done related => exact .pure related

theorem parallel_repeated (steps : ∀ s s', S s s' → Parallel (Round.Alike S R) (step s) (step' s'))
    (related : S s s') : Parallel R (repeated step s) (repeated step' s') := by
  intro c d alike
  unfold repeated
  rw [alike.length]
  exact parallel_rounds steps _ related c d alike

end

section

variable {α β : Type} {R : α → β → Prop} {item : Parser α} {item' : Parser β}

/-- Related items, one after the other. -/
def RelatedItems (R : α → β → Prop) (read : Array α) (read' : Array β) : Prop :=
  List.Forall₂ R read.toList read'.toList

theorem RelatedItems.push {read : Array α} (items : RelatedItems R read read') (related : R a b) :
    RelatedItems R (read.push a) (read'.push b) := by
  unfold RelatedItems
  rw [Array.toList_push, Array.toList_push]
  exact List.rel_append items (.cons related .nil)

theorem parallel_collect {item : Parser (Option α)} {item' : Parser (Option β)}
    (items : Parallel (Option.Rel R) item item') :
    Parallel (List.Forall₂ R) (collect item) (collect item') := by
  refine parallel_repeated (S := RelatedItems R) (fun read read' related => ?_) .nil
  refine items.bind fun a b alike => ?_
  cases alike with
  | some related' => exact .pure (.again (related.push related'))
  | none => exact .pure (.done related)

theorem parallel_collectWhile (settled : ∀ c d, c.Alike d → more d = more c)
    (items : Parallel R item item') :
    Parallel (List.Forall₂ R) (collectWhile more item) (collectWhile more item') := by
  refine parallel_collect (.look fun c d alike => ?_)
  rw [settled c d alike]
  split
  · exact items.map fun _ _ => .some
  · exact .pure .none

theorem parallel_afterCommas (settled : ∀ c d, c.Alike d → more d = more c)
    (items : Parallel R item item') :
    Parallel (List.Forall₂ R) (afterCommas more item) (afterCommas more item') := by
  refine parallel_collect (.bindEq parallel_accept fun comma => ?_)
  split
  · refine .look fun c d alike => ?_
    rw [settled c d alike]
    split
    · exact items.map fun _ _ => .some
    · exact .pure .none
  · exact .pure .none

theorem parallel_upTo (items : Parallel R item item') :
    Parallel (List.Forall₂ R) (upTo close item) (upTo close item') := by
  refine parallel_repeated (S := RelatedItems R) (fun read read' related => ?_) .nil
  refine .bindEq parallel_atKind fun closed => ?_
  split
  · exact .pure (.done related)
  · refine items.bind fun a b related' => ?_
    refine .bindEq parallel_accept fun comma => ?_
    split
    · exact .pure (.again (related.push related'))
    · exact .pure (.done (related.push related'))

end

end Parser
end FlowTypes
