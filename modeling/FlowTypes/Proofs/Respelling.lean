import FlowTypes.Proofs.LineLayout
import FlowTypes.Proofs.LineShapes

/-! Two spellings of a text. Readers of the two are in step as long as each finds the same shape at the
head of its text; then both come to their ends or both are stuck, with the same tokens up to their
places. -/
namespace FlowTypes

/-- Both attempts fail, or both give something, and what they give is related. -/
inductive Outcome {α β : Type} (R : α → β → Prop) : Except Error α → Except Error β → Prop
  | failed (e e' : Error) : Outcome R (.error e) (.error e')
  | read {a : α} {b : β} (related : R a b) : Outcome R (.ok a) (.ok b)

theorem Outcome.bind (first : Outcome R x y) (next : ∀ a b, R a b → Outcome Q (f a) (g b)) :
    Outcome Q (x.bind f) (y.bind g) := by
  cases first with
  | failed e e' => exact .failed e e'
  | read related => exact next _ _ related

theorem Outcome.map (first : Outcome R x y) (next : ∀ a b, R a b → Q (f a) (g b)) :
    Outcome Q (x.map f) (y.map g) := by
  cases first with
  | failed e e' => exact .failed e e'
  | read related => exact .read (next _ _ related)

/-- What a token is, apart from its place: its kind and what is shown of its value. -/
def Token.word (shown : Kind → String → String) (t : Token) : Kind × String :=
  (t.kind, shown t.kind t.value)

/-- The tokens of a text apart from their places, if it can be read. -/
def words (shown : Kind → String → String) (source file : String) : Option (List (Kind × String)) :=
  (tokenize source file).toOption.map fun tokens => tokens.toList.map (Token.word shown)

namespace Lexer

variable {R : List Char → List Char → Prop} {shown : Kind → String → String} {s t u : Lexer} {n m : Nat}

/-- Readers that agree in all but the text they have left and the places of their tokens. -/
structure Alike (shown : Kind → String → String) (s t : Lexer) : Prop where
  depth : t.depth = s.depth
  widths : t.widths = s.widths
  atLineStart : t.atLineStart = s.atLineStart
  tokens : t.tokens.toList.map (Token.word shown) = s.tokens.toList.map (Token.word shown)

namespace Alike

theorem trans (alike : Alike shown s t) (alike' : Alike shown t u) : Alike shown s u :=
  ⟨alike'.depth.trans alike.depth, alike'.widths.trans alike.widths,
    alike'.atLineStart.trans alike.atLineStart, alike'.tokens.trans alike.tokens⟩

theorem advance (alike : Alike shown s t) : Alike shown (s.advance n) (t.advance m) :=
  ⟨alike.depth, alike.widths, alike.atLineStart, alike.tokens⟩

theorem push (alike : Alike shown s t) (same : shown kind value' = shown kind value) :
    Alike shown (s.push kind value n) (t.push kind value' m) := by
  refine ⟨alike.depth, alike.widths, alike.atLineStart, ?_⟩
  simp [Lexer.push, alike.tokens, Token.word, same]

theorem take (alike : Alike shown s t)
    (same : shown kind (String.ofList value') = shown kind (String.ofList value)) :
    Alike shown (s.take kind value n) (t.take kind value' m) :=
  (alike.push same).advance

theorem withDepth (alike : Alike shown s t) {depth : Nat} :
    Alike shown { s with depth } { t with depth } :=
  ⟨rfl, alike.widths, alike.atLineStart, alike.tokens⟩

theorem pushDedents (alike : Alike shown s t) :
    Alike shown (s.pushDedents k) (t.pushDedents k) := by
  induction k generalizing s t with
  | zero => exact alike
  | succ k ih => exact ih (alike.push rfl)

theorem midLine (alike : Alike shown s t) : t.midLine = s.midLine := by
  have last := congrArg (fun tokens => (List.getLast? tokens).map Prod.fst) alike.tokens
  simp only [List.getLast?_map, Array.getLast?_toList, Option.map_map] at last
  unfold Lexer.midLine
  cases left : s.tokens.back? <;> cases right : t.tokens.back? <;>
    simp_all [Token.word]

theorem closeLine (alike : Alike shown s t) : Alike shown (s.closeLine n) (t.closeLine m) := by
  unfold Lexer.closeLine
  rw [alike.depth, alike.midLine]
  have ended : Alike shown (if s.midLine then s.push .newline "\\n" n else s)
      (if s.midLine then t.push .newline "\\n" m else t) := by
    split
    · exact alike.push rfl
    · exact alike
  split
  · exact ⟨ended.depth, ended.widths, rfl, ended.tokens⟩
  · exact alike.advance

theorem finish (alike : Alike shown s t) :
    t.finish.toList.map (Token.word shown) = s.finish.toList.map (Token.word shown) := by
  have closed : ∀ {s t : Lexer}, Alike shown s t →
      ((t.pushDedents (t.widths.length - 1)).push .eof "EOF" 0).tokens.toList.map (Token.word shown) =
      ((s.pushDedents (s.widths.length - 1)).push .eof "EOF" 0).tokens.toList.map (Token.word shown) :=
    fun alike => by rw [alike.widths]; exact (alike.pushDedents.push rfl).tokens
  unfold Lexer.finish
  rw [alike.midLine]
  split
  · exact closed (alike.push rfl)
  · exact closed alike

end Alike

/-- Readers in step: what the one has left is another spelling of what the other has left. -/
structure InStep (R : List Char → List Char → Prop) (shown : Kind → String → String) (s t : Lexer) :
    Prop extends Alike shown s t where
  rest : R s.rest t.rest

/-- Both texts have the same indentation, and a line that counts in the one counts in the other. -/
structure SameIndent (R : List Char → List Char → Prop) (cs cs' : List Char) : Prop where
  blank : cs'.takeWhile Shape.isSpace = cs.takeWhile Shape.isSpace
  behind : R (cs.drop (cs.takeWhile Shape.isSpace).length)
    (cs'.drop (cs.takeWhile Shape.isSpace).length)
  idle : isIdleLine (cs'.drop (cs.takeWhile Shape.isSpace).length) =
    isIdleLine (cs.drop (cs.takeWhile Shape.isSpace).length)

/-- Both texts start with the same shape, in so many characters, and give the same token. -/
structure SameHead (R : List Char → List Char → Prop) (shown : Kind → String → String)
    (cs cs' : List Char) (shape : Shape) (n m : Nat) : Prop where
  found : Shape.first? cs' = some (shape, m)
  behind : R (cs.drop n) (cs'.drop m)
  same : shape.isInLine → cs'.take m = cs.take n
  value : shape = .string → shown .string (String.ofList (Literal.value (cs'.take m))) =
    shown .string (String.ofList (Literal.value (cs.take n)))

theorem readHead_of_first? (found : Shape.first? s.rest = some (shape, n)) :
    s.readHead = s.readShape shape n := by
  unfold readHead
  split
  · next empty => simp [empty, show Shape.first? [] = none by decide] at found
  · rw [found]

theorem readHead_of_unread (more : s.rest ≠ []) (unread : Shape.first? s.rest = none) :
    ∃ e, s.readHead = .error e := by
  unfold readHead
  split
  · contradiction
  · exact ⟨_, by rw [unread]⟩

namespace InStep

theorem openLine (inStep : InStep R shown s t) (indent : SameIndent R s.rest t.rest) :
    Outcome (InStep R shown) s.openLine t.openLine := by
  obtain ⟨alike, -⟩ := inStep
  obtain ⟨blank, behind, idle⟩ := indent
  simp only [Lexer.openLine, blank, idle, alike.widths]
  split
  · exact .read ⟨Alike.advance ⟨alike.depth, rfl, rfl, alike.tokens⟩, behind⟩
  · split
    · refine .read ⟨Alike.advance (.push ?_ rfl), behind⟩
      exact ⟨alike.depth, rfl, rfl, alike.tokens⟩
    · split
      · exact .failed _ _
      · refine .read ⟨Alike.advance (.pushDedents ?_), ?_⟩
        · exact ⟨alike.depth, rfl, rfl, alike.tokens⟩
        · simpa only [rest_advance, rest_pushDedents] using behind

theorem readHead (inStep : InStep R shown s t) (found : Shape.first? s.rest = some (shape, n))
    (head : SameHead R shown s.rest t.rest shape n m) :
    Outcome (InStep R shown) s.readHead t.readHead := by
  obtain ⟨alike, -⟩ := inStep
  obtain ⟨found', behind, same, value⟩ := head
  rw [readHead_of_first? found, readHead_of_first? found']
  have first : shape.isInLine → t.rest.head? = s.rest.head? := fun inLine => by
    have positive := Shape.first?_pos found
    have positive' := Shape.first?_pos found'
    have heads := congrArg List.head? (same inLine)
    rwa [List.head?_take, List.head?_take, if_neg (by omega), if_neg (by omega)] at heads
  cases shape with
  | gap => exact .read ⟨alike.advance, behind⟩
  | lineBreak => exact .read ⟨alike.closeLine, by simpa only [rest_closeLine] using behind⟩
  | string => exact .read ⟨alike.take (value rfl), behind⟩
  | openString => exact .failed _ _
  | number => exact .read ⟨alike.take (by rw [same rfl]), behind⟩
  | word =>
    simp only [readShape, same rfl]
    exact .read ⟨alike.take rfl, behind⟩
  | opening =>
    simp only [readShape, same rfl, first rfl, alike.depth]
    exact .read ⟨(alike.take rfl).withDepth, behind⟩
  | closing =>
    simp only [readShape, same rfl, first rfl, alike.depth]
    exact .read ⟨(alike.take rfl).withDepth, behind⟩
  | symbol text kind => exact .read ⟨alike.take rfl, behind⟩

theorem atLine_iff (inStep : InStep R shown s t) : t.AtLine ↔ s.AtLine := by
  rw [AtLine, AtLine, inStep.atLineStart, inStep.depth]

theorem move (inStep : InStep R shown s t) (more : t.rest ≠ [])
    (opens : s.AtLine → SameIndent R s.rest t.rest)
    (reads : ¬ s.AtLine → ∀ {shape n}, Shape.first? s.rest = some (shape, n) →
      s.readShape shape n = .ok u → ∃ m, SameHead R shown s.rest t.rest shape n m)
    (move : Move s u) : ∃ v, Move t v ∧ InStep R shown u v := by
  cases move with
  | opens _ starts opened =>
    have outcome := inStep.openLine (opens starts)
    rw [opened] at outcome
    cases same : t.openLine <;> rw [same] at outcome <;> cases outcome
    next v inStep' => exact ⟨v, .opens more (inStep.atLine_iff.mpr starts) same, inStep'⟩
  | reads some inside read =>
    cases found : Shape.first? s.rest with
    | none =>
      obtain ⟨e, failed⟩ := readHead_of_unread some found
      cases failed.symm.trans read
    | some pair =>
      obtain ⟨m, head⟩ := reads inside found ((readHead_of_first? found).symm.trans read)
      have outcome := inStep.readHead found head
      rw [read] at outcome
      cases same : t.readHead <;> rw [same] at outcome <;> cases outcome
      next v inStep' => exact ⟨v, .reads more (inStep.atLine_iff.not.mpr inside) same, inStep'⟩

end InStep

/-- With this text left, the reader does what it does with its own. -/
structure Respelled (R : List Char → List Char → Prop) (shown : Kind → String → String) (s : Lexer)
    (cs : List Char) : Prop where
  nil_iff : cs = [] ↔ s.rest = []
  indent : s.AtLine → SameIndent R s.rest cs
  unread : ¬ s.AtLine → Shape.first? s.rest = none → Shape.first? cs = none
  head : ¬ s.AtLine → ∀ {shape n}, Shape.first? s.rest = some (shape, n) →
    ∃ m, SameHead R shown s.rest cs shape n m

theorem Respelled.refl : Respelled Eq shown s s.rest :=
  ⟨.rfl, fun _ => ⟨rfl, rfl, rfl⟩, fun _ => id,
    fun _ _ _ found => ⟨_, found, rfl, fun _ => rfl, fun _ => rfl⟩⟩

namespace InStep

theorem move_of_respelled (inStep : InStep R shown s t) (respelled : Respelled R shown s t.rest)
    (move : Move s u) : ∃ v, Move t v ∧ InStep R shown u v := by
  have more := respelled.nil_iff.not.mpr (by cases move <;> assumption)
  exact inStep.move more respelled.indent (fun inside _ _ found _ => respelled.head inside found) move

theorem rejects (inStep : InStep R shown s t) (respelled : Respelled R shown s t.rest)
    (rejects : s.Rejects e) : ∃ e', t.Rejects e' := by
  cases rejects with
  | opens more starts failed =>
    have outcome := inStep.openLine (respelled.indent starts)
    rw [failed] at outcome
    cases same : t.openLine <;> rw [same] at outcome <;> cases outcome
    exact ⟨_, .opens (respelled.nil_iff.not.mpr more) (inStep.atLine_iff.mpr starts) same⟩
  | reads more inside failed =>
    have more' := respelled.nil_iff.not.mpr more
    suffices ∃ e', t.readHead = .error e' from
      this.imp fun _ => .reads more' (inStep.atLine_iff.not.mpr inside)
    cases found : Shape.first? s.rest with
    | none => exact readHead_of_unread more' (respelled.unread inside found)
    | some pair =>
      obtain ⟨m, head⟩ := respelled.head inside found
      have outcome := inStep.readHead found head
      rw [failed] at outcome
      cases same : t.readHead <;> rw [same] at outcome <;> cases outcome
      exact ⟨_, rfl⟩

theorem reaches (inStep : InStep R shown s t) (path : Reaches s u)
    (respelled : ∀ v, Reaches s v → ∀ cs, R v.rest cs → Respelled R shown v cs) :
    ∃ v, Reaches t v ∧ InStep R shown u v := by
  induction path with
  | refl => exact ⟨t, .refl, inStep⟩
  | tail before last ih =>
    obtain ⟨v, path', inStep'⟩ := ih
    obtain ⟨w, last', inStep''⟩ :=
      inStep'.move_of_respelled (respelled _ before _ inStep'.rest) last
    exact ⟨w, path'.tail last', inStep''⟩

/-- Texts that are spelled alike wherever the reader comes are read alike. -/
theorem run (inStep : InStep R shown s t)
    (respelled : ∀ u, Reaches s u → ∀ cs, R u.rest cs → Respelled R shown u cs) :
    Outcome (InStep R shown) s.run t.run := by
  rcases s.run_cases with ⟨u, ran, path, done⟩ | ⟨e, u, ran, path, rejects⟩
  · obtain ⟨v, path', inStep'⟩ := inStep.reaches path respelled
    have done' := (respelled u path _ inStep'.rest).nil_iff.mpr done
    rw [ran, run_of_reaches path', run_eq, if_pos done']
    exact .read inStep'
  · obtain ⟨v, path', inStep'⟩ := inStep.reaches path respelled
    obtain ⟨e', rejects'⟩ := inStep'.rejects (respelled u path _ inStep'.rest) rejects
    rw [ran, run_of_reaches path', run_of_rejects rejects']
    exact .failed _ _

end InStep

theorem words_eq {file : String} (outcome : Outcome (InStep R shown)
    (run { file, rest := source.toList }) (run { file, rest := source'.toList })) :
    words shown source' file = words shown source file := by
  unfold words tokenize
  revert outcome
  generalize run { file, rest := source.toList } = left
  generalize run { file, rest := source'.toList } = right
  intro outcome
  cases outcome with
  | failed => rfl
  | read inStep => exact congrArg some inStep.toAlike.finish

end Lexer
end FlowTypes
