import FlowTypes.Proofs.Assembly.Logic

/-! Where reading leads. A reader stands at a place of its list of tokens and comes to a later one, or
stops with an error that is put down to a token of the list. The nodes of what it read are put together
on the way, and laid over the tokens that were read for them. -/
namespace FlowTypes

/-! ### Places in a list of tokens -/

/-- Tokens up to one that marks their end. -/
structure TokenList where
  list : List Token
  ended : list.getLast?.map (·.kind) = some .eof

/-- What an error can hold against a token. -/
def Cause.Blames (t : Token) : Cause → Prop
  | unexpectedToken value | unexpectedTokenDetailed value _ | malformedNumber value => value = t.value
  /- The token is the first one of the target. -/
  | invalidTarget _ => True
  | _ => False

namespace TokenList

/-- The tokens for a reader. The mark for the end is added if it is missing. -/
def ofTokens (tokens : List Token) (file : String) : TokenList where
  list := if tokens.getLast?.map (·.kind) = some .eof then tokens
    else tokens ++ [Cursor.closing tokens file]
  ended := by
    split
    · case isTrue ended => exact ended
    · rw [List.getLast?_concat]
      rfl

variable (ts : TokenList) {k : Nat}

def length : Nat := ts.list.length

def last : Token := ts.list.getLast?.getD default

/-- The token at a place; behind the end it is the last one. -/
def get (k : Nat) : Token := ts.list[k]?.getD ts.last

def kind (k : Nat) : Kind := (ts.get k).kind

/-- From the start of the token at place `i` to the end of the one in front of place `j`. -/
def span (i j : Nat) : Span := ⟨(ts.get i).span.start, (ts.get (j - 1)).span.stop⟩

/-- The error is put down to a token of the list. -/
def Refuses (e : Error) : Prop := ∃ t ∈ ts.list, e.position = t.span.start ∧ e.cause.Blames t

theorem getLast?_list : ts.list.getLast? = some ts.last := by
  obtain ⟨t, final, -⟩ := Option.map_eq_some_iff.mp ts.ended
  rw [last, final]
  rfl

theorem kind_last : ts.last.kind = .eof := by
  have ended := ts.ended
  rw [ts.getLast?_list] at ended
  exact Option.some.inj ended

theorem last_mem : ts.last ∈ ts.list := List.mem_of_getLast? ts.getLast?_list

theorem get_mem (k : Nat) : ts.get k ∈ ts.list := by
  unfold get
  cases found : ts.list[k]? with
  | none => exact ts.last_mem
  | some t => exact List.mem_of_getElem? found

theorem kind_of_length_le (behind : ts.length ≤ k + 1) : ts.kind k = .eof := by
  have ended : ts.get k = ts.last := by
    unfold get
    rcases Nat.lt_or_ge k ts.list.length with inside | outside
    · have final : k = ts.list.length - 1 := by
        unfold length at behind
        omega
      rw [final, ← List.getLast?_eq_getElem?, ts.getLast?_list]
      rfl
    · rw [List.getElem?_eq_none outside]
      rfl
  rw [kind, ended, ts.kind_last]

theorem lt_length {kind : Kind} (there : ts.kind k = kind) (notEnd : kind ≠ .eof) :
    k + 1 < ts.length := by
  apply Nat.lt_of_not_le
  intro behind
  exact notEnd (there ▸ ts.kind_of_length_le behind)

theorem inside {kind : Kind} (there : ts.kind k = kind) (notEnd : kind ≠ .eof) : k < ts.length :=
  Nat.lt_of_succ_lt (ts.lt_length there notEnd)

end TokenList

/-- The cursor stands at place `k` of the list. -/
structure Cursor.At (ts : TokenList) (k : Nat) (c : Cursor) : Prop where
  rest : c.rest = ts.list.drop k
  last : c.last = ts.last
  previous : c.previous = ts.get (k - 1)
  bound : k ≤ ts.length

namespace Cursor.At

variable {ts : TokenList} {k : Nat} {c : Cursor}

theorem current (here : c.At ts k) : c.current = ts.get k := by
  rw [Cursor.current, here.rest, here.last, List.headD_eq_head?_getD, List.head?_drop]
  rfl

theorem kind (here : c.At ts k) : c.kind = ts.kind k := by
  rw [Cursor.kind, here.current]
  rfl

theorem position (here : c.At ts k) : c.position = (ts.get k).span.start := by
  rw [Cursor.position, here.current]

theorem length (here : c.At ts k) : c.rest.length = ts.length - k := by
  rw [here.rest, List.length_drop]
  rfl

theorem shift (here : c.At ts k) (inside : k < ts.length) : c.shift.At ts (k + 1) where
  rest := by
    show c.rest.tail = _
    rw [here.rest, List.tail_drop]
  last := here.last
  previous := here.current
  bound := inside

theorem number (here : c.At ts k) : c.number.At ts k :=
  ⟨here.rest, here.last, here.previous, here.bound⟩

theorem refuses (here : c.At ts k) (blames : cause.Blames c.current) :
    ts.Refuses ⟨cause, c.position⟩ := by
  rw [here.current] at blames
  exact ⟨ts.get k, ts.get_mem k, here.position, blames⟩

end Cursor.At

theorem Cursor.at_ofTokens (tokens : List Token) (file : String) (firstId : NodeId) :
    (Cursor.ofTokens tokens file firstId).At (.ofTokens tokens file) 0 := by
  have start : ∀ (ts : TokenList) (rest : List Token) (last : Token), rest = ts.list →
      last = ts.last → Cursor.At ts 0 ⟨rest, last, rest.headD last, firstId⟩ := by
    rintro ts _ _ rfl rfl
    refine ⟨rfl, rfl, ?_, Nat.zero_le _⟩
    show ts.list.headD ts.last = ts.get 0
    rw [List.headD_eq_head?_getD, List.head?_eq_getElem?]
    rfl
  unfold Cursor.ofTokens
  cases final : tokens.getLast? with
  | none =>
    obtain rfl := List.getLast?_eq_none_iff.mp final
    exact start (.ofTokens [] file) _ _ rfl rfl
  | some t =>
    by_cases isEnd : t.kind = .eof
    · have given : (TokenList.ofTokens tokens file).list = tokens := by
        simp [TokenList.ofTokens, final, isEnd]
      simp only [if_pos isEnd]
      apply start
      · exact given.symm
      · rw [TokenList.last, given, final]
        rfl
    · have added : (TokenList.ofTokens tokens file).list = tokens ++ [closing tokens file] := by
        simp [TokenList.ofTokens, final, isEnd]
      simp only [if_neg isEnd]
      apply start
      · exact added.symm
      · rw [TokenList.last, added, List.getLast?_concat]
        rfl

/-! ### Readers -/

/-- Reading came to a place of the list, or stopped with an error that is put down to a token of it. -/
inductive Settled {α : Type} (ts : TokenList) (Q : α → Nat → Prop) :
    Except Error (α × Cursor) → Prop
  | read {a : α} {c : Cursor} {k : Nat} (there : c.At ts k) (holds : Q a k) :
      Settled ts Q (.ok (a, c))
  | refused {e : Error} (refuses : ts.Refuses e) : Settled ts Q (.error e)

open FlowTypes.Parser Content

/-- What was given, and what was read from the cursor on, is put together to the result. -/
inductive Arrives {α : Type} [Content α] (ts : TokenList) (given : List TreeNode) (c : Cursor)
    (Q : α → Nat → Prop) : Except Error (α × Cursor) → Prop
  | read {a : α} {c' : Cursor} {k : Nat} (there : c'.At ts k) (holds : Q a k)
      (path : ∀ stack, Assembles (stack ++ given, c) (stack ++ nodes a, c')) :
      Arrives ts given c Q (.ok (a, c'))
  | refused {e : Error} (refuses : ts.Refuses e) : Arrives ts given c Q (.error e)

/-- From place `k` on, the reader comes to a result and a place as described. -/
def Delivers {α : Type} [Content α] (ts : TokenList) (k : Nat) (given : List TreeNode)
    (p : Parser α) (Q : α → Nat → Prop) : Prop :=
  ∀ c : Cursor, c.At ts k → Arrives ts given c Q (p c)

section

variable {α β : Type} [Content α] [Content β] {ts : TokenList} {k : Nat} {p : Parser α}
  {f : α → Parser β} {P : α → Nat → Prop} {Q : β → Nat → Prop} {given mine : List TreeNode}

theorem Arrives.settled (arrives : Arrives ts given c P outcome) : Settled ts P outcome := by
  cases arrives with
  | read there holds _ => exact .read there holds
  | refused refuses => exact .refused refuses

theorem Arrives.after (arrives : Arrives ts mine c' P outcome)
    (path : ∀ stack, Assembles (stack ++ given, c) (stack ++ mine, c')) :
    Arrives ts given c P outcome := by
  cases arrives with
  | read there holds rest => exact .read there holds fun stack => (path stack).trans (rest stack)
  | refused refuses => exact .refused refuses

namespace Delivers

theorem pure (holds : Q b k) (known : (nodes b).Sublist given) :
    Delivers ts k given (Pure.pure b) Q :=
  fun c here => .read here holds fun stack => .single (.drop c (known.append_left stack))

/-- What was given to the first of two readers comes last. -/
theorem bindLast (given : List TreeNode) (first : Delivers ts k mine p P)
    (next : ∀ a k', P a k' → Delivers ts k' (given ++ nodes a) (f a) Q) :
    Delivers ts k (given ++ mine) (p >>= f) Q := by
  intro c here
  show Arrives ts (given ++ mine) c Q (p c >>= fun pair => f pair.1 pair.2)
  have arrives := first c here
  generalize p c = outcome at arrives
  cases arrives with
  | @read a c' k' there holds path =>
    apply (next a k' holds c' there).after
    intro stack
    simpa only [List.append_assoc] using path (stack ++ given)
  | refused refuses => exact .refused refuses

theorem bind (first : Delivers ts k [] p P)
    (next : ∀ a k', P a k' → Delivers ts k' (given ++ nodes a) (f a) Q) :
    Delivers ts k given (p >>= f) Q := by
  have both := first.bindLast given next
  rwa [List.append_nil] at both

theorem skip [Bare α] (first : Delivers ts k [] p P)
    (next : ∀ a k', P a k' → Delivers ts k' given (f a) Q) : Delivers ts k given (p >>= f) Q := by
  apply first.bind
  intro a k' holds
  rw [Bare.nodes_eq, List.append_nil]
  exact next a k' holds

theorem mono (first : Delivers ts k given p P) (weaker : ∀ a k', P a k' → P' a k') :
    Delivers ts k given p P' := by
  intro c here
  have arrives := first c here
  generalize p c = outcome at arrives ⊢
  cases arrives with
  | read there holds path => exact .read there (weaker _ _ holds) path
  | refused refuses => exact .refused refuses

theorem drop (known : mine.Sublist given) (first : Delivers ts k mine p P) :
    Delivers ts k given p P := fun c here =>
  (first c here).after fun stack => .single (.drop c (known.append_left stack))

theorem dissolve (first : Delivers ts k t.parts p P) : Delivers ts k [t] p P :=
  fun c here => (first c here).after fun stack => .single (.dissolve stack t c)

theorem get_bind {f : Cursor → Parser β} (next : ∀ c, c.At ts k → Delivers ts k given (f c) Q) :
    Delivers ts k given (get >>= f) Q :=
  fun c here => next c here c here

theorem map (first : Delivers ts k given p fun a k' => Q (g a) k')
    (same : ∀ a, nodes (g a) = nodes a) : Delivers ts k given (g <$> p) Q :=
  first.bindLast (f := fun a => Pure.pure (g a)) [] fun a _ holds => pure holds (by simp [same])

/-! The small readers come with what is read behind them. -/

theorem kind {f : Kind → Parser β} (next : Delivers ts k given (f (ts.kind k)) Q) :
    Delivers ts k given (Parser.kind >>= f) Q := by
  intro c here
  show Arrives ts given c Q (f c.kind c)
  rw [here.kind]
  exact next c here

theorem ifAt {kind : Kind} (there : ts.kind k = kind → Delivers ts k given yes Q)
    (absent : ts.kind k ≠ kind → Delivers ts k given no Q) :
    Delivers ts k given (atKind kind >>= fun b => if b = true then yes else no) Q := by
  intro c here
  show Arrives ts given c Q ((if decide (c.kind = kind) = true then yes else no) c)
  rw [here.kind]
  by_cases same : ts.kind k = kind
  · rw [if_pos (decide_eq_true same)]
    exact there same c here
  · rw [if_neg (by simpa using same)]
    exact absent same c here

theorem advance {f : Token → Parser β} (inside : k < ts.length)
    (next : Delivers ts (k + 1) given (f (ts.get k)) Q) :
    Delivers ts k given (Parser.advance >>= f) Q := by
  intro c here
  show Arrives ts given c Q (f c.current c.shift)
  rw [here.current]
  exact (next c.shift (here.shift inside)).after fun stack => .single (.shift _ c)

theorem shift {kind : Kind} {f : Token → Parser β} (there : ts.kind k = kind)
    (notEnd : kind ≠ .eof) (next : Delivers ts (k + 1) given (f (ts.get k)) Q) :
    Delivers ts k given (Parser.advance >>= f) Q :=
  advance (ts.inside there notEnd) next

theorem fail : Delivers ts k given (Parser.fail : Parser β) Q :=
  fun _ here => .refused (here.refuses rfl)

theorem failBecause : Delivers ts k given (Parser.failBecause message : Parser β) Q :=
  fun _ here => .refused (here.refuses rfl)

theorem expectOr {kind : Kind} {f : Token → Parser β} (fails : Delivers ts k [] g fun _ _ => False)
    (next : ts.kind k = kind → Delivers ts (k + 1) given (f (ts.get k)) Q) (notEnd : kind ≠ .eof) :
    Delivers ts k given
      ((atKind kind >>= fun b => if b = true then Parser.advance else g) >>= f) Q := by
  have reads : Delivers ts k [] (atKind kind >>= fun b => if b = true then Parser.advance else g)
      fun t k' => ts.kind k = kind ∧ t = ts.get k ∧ k' = k + 1 := by
    apply ifAt
    · intro there c here
      exact .read (here.shift (ts.inside there notEnd)) ⟨there, here.current, rfl⟩ fun stack =>
        .single (.shift _ c)
    · intro _
      exact fails.mono fun _ _ none => none.elim
  apply reads.skip
  rintro _ _ ⟨there, rfl, rfl⟩
  exact next there

theorem expect (kind : Kind) (notEnd : kind ≠ .eof) {f : Token → Parser β}
    (next : ts.kind k = kind → Delivers ts (k + 1) given (f (ts.get k)) Q) :
    Delivers ts k given (Parser.expect kind >>= f) Q :=
  expectOr fail next notEnd

theorem expectBecause (kind : Kind) (notEnd : kind ≠ .eof) {f : Token → Parser β}
    (next : ts.kind k = kind → Delivers ts (k + 1) given (f (ts.get k)) Q) :
    Delivers ts k given (Parser.expectBecause kind message >>= f) Q :=
  expectOr failBecause next notEnd

theorem accepts {kind : Kind} (notEnd : kind ≠ .eof) :
    Delivers ts k [] (Parser.accept kind) fun b k' =>
      b = true ∧ ts.kind k = kind ∧ k' = k + 1 ∨ b = false ∧ ts.kind k ≠ kind ∧ k' = k := by
  apply ifAt
  · intro there
    exact .shift there notEnd (.pure (.inl ⟨rfl, there, rfl⟩) (.refl _))
  · intro absent
    exact .pure (.inr ⟨rfl, absent, rfl⟩) (.refl _)

theorem ifAccepted (kind : Kind) (notEnd : kind ≠ .eof)
    (there : ts.kind k = kind → Delivers ts (k + 1) given yes Q)
    (absent : ts.kind k ≠ kind → Delivers ts k given no Q) :
    Delivers ts k given (Parser.accept kind >>= fun b => if b = true then yes else no) Q := by
  apply (accepts notEnd).skip
  rintro _ _ (⟨rfl, same, rfl⟩ | ⟨rfl, other, rfl⟩)
  · exact there same
  · exact absent other

theorem accept (kind : Kind) (notEnd : kind ≠ .eof) {f : Bool → Parser β}
    (next : ∀ b k', k ≤ k' → Delivers ts k' given (f b) Q) :
    Delivers ts k given (Parser.accept kind >>= f) Q := by
  apply (accepts notEnd).skip
  rintro b _ (⟨-, -, rfl⟩ | ⟨-, -, rfl⟩)
  · exact next b _ (Nat.le_succ _)
  · exact next b _ (Nat.le_refl _)

end Delivers

/-- A reader that gives an identity away, to a node for the tokens from place `i` up to place `j`. -/
def Places (ts : TokenList) (k i j : Nat) (new : Parser Node) : Prop :=
  ∀ c : Cursor, c.At ts k → ∃ n : Node, new c = .ok (n, c.number) ∧ n.id = c.nextId ∧
    n.span = ts.span i j

theorem places_nodeAt (same : span = ts.span i j) : Places ts k i j (nodeAt span) :=
  fun c _ => ⟨⟨c.nextId, span⟩, rfl, rfl, same⟩

theorem places_token : Places ts k i (i + 1) (nodeAt (ts.get i).span) :=
  places_nodeAt rfl

theorem places_nodeFrom (same : start = (ts.get i).span.start) :
    Places ts k i k (nodeFrom start) := by
  intro c here
  apply places_nodeAt _ c here
  rw [here.previous, same]
  rfl

/-! ### Repetitions -/

/-- A round that leads on advances. -/
def Round.Goes {σ ρ : Type} (I : σ → Nat → Prop) (Q : ρ → Nat → Prop) (k : Nat) :
    Round σ ρ → Nat → Prop
  | .again s, k' => k < k' ∧ I s k'
  | .done r, k' => Q r k'

section

variable {σ ρ : Type} [Content σ] [Content ρ] {I : σ → Nat → Prop} {Q : ρ → Nat → Prop}
  {step : σ → Parser (Round σ ρ)}

/-- Every round but the last takes a token, so that more rounds than tokens are enough. -/
theorem delivers_rounds
    (each : ∀ s k, I s k → Delivers ts k (nodes s) (step s) (Round.Goes I Q k)) (n : Nat)
    (s : σ) (enough : ts.length < k + n) (holds : I s k) :
    Delivers ts k (nodes s) (rounds step n s) Q := by
  induction n generalizing s k with
  | zero =>
    intro c here
    have := here.bound
    omega
  | succ n ih =>
    apply (each s k holds).bindLast []
    intro round k' goes
    cases round with
    | again s' => exact ih s' (by have := goes.1; omega) goes.2
    | done r => exact .pure goes (.refl _)

theorem delivers_repeated
    (each : ∀ s k, I s k → Delivers ts k (nodes s) (step s) (Round.Goes I Q k)) (s : σ)
    (holds : I s k) : Delivers ts k (nodes s) (repeated step s) Q := by
  intro c here
  apply delivers_rounds each _ s _ holds c here
  have := here.length
  omega

end

/-! ### Nodes over tokens -/

/-- One of the tokens from place `i` up to place `j` is a name with the given text and span. -/
def TokenList.Names (ts : TokenList) (i j : Nat) (isName : Token → Prop) (text : String)
    (span : Span) : Prop :=
  ∃ m, i ≤ m ∧ m < j ∧ isName (ts.get m) ∧ (ts.get m).value = text ∧ (ts.get m).span = span

/-- Behind the token at place `i`, an import names its module. Only where the import goes up through
packages, or is next itself, the module may have no name. -/
def TokenList.NamesModule (ts : TokenList) (i : Nat) (source : String) (level : Nat) : Prop :=
  if ts.kind (i + 1) = .kwImport then level = 0 ∧ source = ""
  else level = 0 → (ts.get (i + 1)).isNameLike = true ∧
    (ts.get (i + 1)).value.toList <+: source.toList

namespace TreeNode

/-- The names that a node takes from its tokens. -/
def Named (ts : TokenList) (i j : Nat) : TreeNode → Prop
  | expr (.name n text) =>
    ts.Names i j (fun t => t.kind = .identifier ∨ t.kind = .kwPrint) text n.span
  | expr (.number n _ text) => ts.Names i j (·.kind = .number) text n.span
  | expr (.member _ _ property span) => ts.Names i j (·.isNameLike = true) property span
  | stmt (.function d) => ts.Names i j (·.kind = .identifier) d.name d.nameSpan
  | stmt (.classDef d) => ts.Names i j (·.kind = .identifier) d.name d.nameSpan
  | stmt (.importFrom _ source level _ _) => ts.kind i = .kwFrom ∧ ts.NamesModule i source level
  | _ => True

end TreeNode

/-- A node lies between two places: its span and its names are those of tokens there, and its parts
lie between the same tokens. -/
inductive Laid (ts : TokenList) : Nat → Nat → TreeNode → Prop
  | across {lo hi i j : Nat} {t : TreeNode} (lower : lo ≤ i) (some : i < j) (upper : j ≤ hi)
      (span : t.node.span = ts.span i j) (named : t.Named ts i j)
      (parts : ∀ u ∈ t.parts, Laid ts i j u) : Laid ts lo hi t

/-- Nodes that lie between two places, of which the second is not in front of the first. -/
structure AllLaid (ts : TokenList) (lo hi : Nat) (us : List TreeNode) : Prop where
  ordered : lo ≤ hi
  each : ∀ u ∈ us, Laid ts lo hi u

section

variable {lo lo' hi hi' : Nat} {t : TreeNode} {us vs : List TreeNode}

theorem Laid.mono (laid : Laid ts lo hi t) (lower : lo' ≤ lo) (upper : hi ≤ hi') :
    Laid ts lo' hi' t := by
  cases laid with
  | across lower' some upper' span named parts =>
    exact .across (by omega) some (by omega) span named parts

/-- A node lies exactly over its own tokens. -/
theorem Laid.tight (laid : Laid ts lo hi t) :
    ∃ i j, lo ≤ i ∧ i < j ∧ j ≤ hi ∧ t.node.span = ts.span i j ∧ Laid ts i j t := by
  cases laid with
  | across lower some upper span named parts =>
    exact ⟨_, _, lower, some, upper, span,
      .across (Nat.le_refl _) some (Nat.le_refl _) span named parts⟩

theorem Laid.parts (laid : Laid ts lo hi t) : AllLaid ts lo hi t.parts := by
  cases laid with
  | across lower some upper span named parts =>
    exact ⟨by omega, fun u part => (parts u part).mono lower upper⟩

namespace AllLaid

theorem nil (lo : Nat) (ordered : lo ≤ hi) : AllLaid ts lo hi [] :=
  ⟨ordered, fun _ found => nomatch found⟩

theorem here : AllLaid ts k k [] := nil k (Nat.le_refl k)

theorem next : AllLaid ts k (k + 1) [] := nil k (Nat.le_succ k)

theorem singleton (laid : Laid ts lo hi t) : AllLaid ts lo hi [t] := by
  refine ⟨laid.parts.ordered, fun u found => ?_⟩
  obtain rfl := List.mem_singleton.mp found
  exact laid

theorem head (laid : AllLaid ts lo hi (t :: us)) : Laid ts lo hi t := laid.each t List.mem_cons_self

theorem mono (laid : AllLaid ts lo hi us) (lower : lo' ≤ lo) (upper : hi ≤ hi') :
    AllLaid ts lo' hi' us :=
  ⟨Nat.le_trans lower (Nat.le_trans laid.ordered upper),
    fun u found => (laid.each u found).mono lower upper⟩

theorem shift (laid : AllLaid ts lo hi us) : AllLaid ts lo (hi + 1) us :=
  laid.mono (Nat.le_refl lo) (Nat.le_succ hi)

theorem of_sublist (laid : AllLaid ts lo hi us) (fewer : vs.Sublist us) : AllLaid ts lo hi vs :=
  ⟨laid.ordered, fun u found => laid.each u (fewer.subset found)⟩

theorem append (first : AllLaid ts lo hi us) (second : AllLaid ts lo hi vs) :
    AllLaid ts lo hi (us ++ vs) := by
  refine ⟨first.ordered, fun u found => ?_⟩
  rcases List.mem_append.mp found with found | found
  · exact first.each u found
  · exact second.each u found

end AllLaid
end

/-- A new node that is made of what was given, and takes its names from the tokens between two places. -/
structure Makes (ts : TokenList) (i j : Nat) (given : List TreeNode) (n : Node) (t : TreeNode) :
    Prop where
  own : t.node = n
  parts : t.parts.Sublist given
  regular : t.Regular
  named : t.Named ts i j

/-- What was read reaches to place `least`, and its nodes lie behind place `low`. -/
structure Gets (ts : TokenList) (low least : Nat) (a : α) (k : Nat) : Prop where
  reached : least ≤ k
  laid : AllLaid ts low k (nodes a)

/-- From place `low` on, the reader takes at least `n` tokens and lays its result over them. -/
def Lays (ts : TokenList) (low n : Nat) (p : Parser α) : Prop :=
  ∀ k, low ≤ k → Delivers ts k [] p (Gets ts k (k + n))

variable {low least i j n : Nat}

namespace Delivers

theorem read (first : Delivers ts k [] p (Gets ts k (k + n))) (held : AllLaid ts i k given)
    (next : ∀ a k', k + n ≤ k' → AllLaid ts i k' (given ++ nodes a) →
      Delivers ts k' (given ++ nodes a) (f a) Q) : Delivers ts k given (p >>= f) Q := by
  apply first.bind
  intro a k' got
  have := got.reached
  apply next a k' this
  exact (held.mono (Nat.le_refl i) (by omega)).append (got.laid.mono held.ordered (Nat.le_refl k'))

theorem widen (first : Delivers ts k given p (Gets ts low least))
    (room : low' ≤ low ∧ least' ≤ least) : Delivers ts k given p (Gets ts low' least') :=
  first.mono fun _ k' got =>
    ⟨Nat.le_trans room.2 got.reached, got.laid.mono room.1 (Nat.le_refl k')⟩

theorem pass (first : Delivers ts k given p (Gets ts low least))
    (next : ∀ a k', least ≤ k' → AllLaid ts low k' (nodes a) → Delivers ts k' (nodes a) (f a) Q) :
    Delivers ts k given (p >>= f) Q :=
  first.bindLast [] fun a k' got => next a k' got.reached got.laid

theorem result {a : α} (held : AllLaid ts i k given) (known : (nodes a).Sublist given)
    (room : low ≤ i ∧ least ≤ k) : Delivers ts k given (Pure.pure a) (Gets ts low least) :=
  .pure ⟨room.2, (held.of_sublist known).mono room.1 (Nat.le_refl k)⟩ known

theorem some (first : Delivers ts k given p (Gets ts low least)) :
    Delivers ts k given (Option.some <$> p) (Gets ts low least) :=
  .map (first.mono fun _ _ got => ⟨got.reached, by simpa using got.laid⟩) (by simp)

theorem either [Decidable b] (held : AllLaid ts i k given) (yes : Delivers ts k [] p (Gets ts k k))
    (no : Delivers ts k [] q (Gets ts k k))
    (next : ∀ a k', k ≤ k' → AllLaid ts i k' (given ++ nodes a) →
      Delivers ts k' (given ++ nodes a) (f a) Q) :
    Delivers ts k given (if b then p >>= f else q >>= f) Q := by
  split
  · exact yes.read (n := 0) held next
  · exact no.read (n := 0) held next

theorem option (kind : Kind) (notEnd : kind ≠ .eof) (held : AllLaid ts i k given)
    (yes : ts.kind k = kind → Delivers ts (k + 1) [] p (Gets ts (k + 1) (k + 1)))
    (no : Delivers ts k [] q (Gets ts k k))
    (next : ∀ a k', k ≤ k' → AllLaid ts i k' (given ++ nodes a) →
      Delivers ts k' (given ++ nodes a) (f a) Q) :
    Delivers ts k given
      (Parser.accept kind >>= fun b => if b = true then p >>= f else q >>= f) Q := by
  refine .ifAccepted kind notEnd (fun there => ?_) fun _ => ?_
  · exact (yes there).read (n := 0) held.shift fun a k' further => next a k' (by omega)
  · exact no.read (n := 0) held next

theorem node (more : List TreeNode) (t : Node → TreeNode) (places : Places ts k i j new)
    (held : AllLaid ts i j given) (makes : ∀ n, n.span = ts.span i j → Makes ts i j given n (t n))
    (some : i < j) (next : ∀ n, Laid ts i j (t n) → Delivers ts k (more ++ [t n]) (g n) Q) :
    Delivers ts k (more ++ given) (new >>= g) Q := by
  intro c here
  obtain ⟨n, ran, free, span⟩ := places c here
  obtain ⟨own, parts, regular, named⟩ := makes n span
  have laid : Laid ts i j (t n) := by
    apply Laid.across (Nat.le_refl i) some (Nat.le_refl j) _ named (held.of_sublist parts).each
    rw [own, span]
  show Arrives ts (more ++ given) c Q (new c >>= fun pair => g pair.1 pair.2)
  rw [ran]
  apply (next n laid c.number here.number).after
  intro stack
  have dropped : AssemblyStep (stack ++ (more ++ given), c) (stack ++ more ++ (t n).parts, c) :=
    .drop c (by simpa using parts)
  have reduced : AssemblyStep (stack ++ more ++ (t n).parts, c)
      (stack ++ more ++ [t n], c.number) :=
    .reduce (stack ++ more) (by rw [own, free]) regular
  rw [← List.append_assoc stack more [t n]]
  exact .head dropped (.single reduced)

theorem reduce {make : Node → α} {t : Node → TreeNode} (places : Places ts k i j new)
    (held : AllLaid ts i j given) (result : ∀ n, nodes (make n) = [t n])
    (makes : ∀ n, n.span = ts.span i j → Makes ts i j given n (t n))
    (room : low ≤ i ∧ i < j ∧ j ≤ k ∧ least ≤ k) :
    Delivers ts k given (new >>= fun n => Pure.pure (make n)) (Gets ts low least) := by
  obtain ⟨lower, some, upper, reached⟩ := room
  apply node [] t places held makes some
  intro n laid
  refine .pure ⟨reached, ?_⟩ (by simp [result])
  rw [result]
  exact .singleton (laid.mono lower upper)

theorem expr {make : Node → Expr} (places : Places ts k i j new) (held : AllLaid ts i j given)
    (makes : ∀ n, n.span = ts.span i j → Makes ts i j given n (.expr (make n)))
    (room : low ≤ i ∧ i < j ∧ j ≤ k ∧ least ≤ k) :
    Delivers ts k given (new >>= fun n => Pure.pure (make n)) (Gets ts low least) :=
  reduce places held (fun _ => rfl) makes room

theorem stmt {make : Node → Stmt} (places : Places ts k i j new) (held : AllLaid ts i j given)
    (makes : ∀ n, n.span = ts.span i j → Makes ts i j given n (.stmt (make n)))
    (room : low ≤ i ∧ i < j ∧ j ≤ k ∧ least ≤ k) :
    Delivers ts k given (new >>= fun n => Pure.pure (make n)) (Gets ts low least) :=
  reduce places held (fun _ => rfl) makes room

end Delivers

theorem Lays.read (lays : Lays ts low n p) (reached : low ≤ k) (held : AllLaid ts i k given)
    (next : ∀ a k', k + n ≤ k' → AllLaid ts i k' (given ++ nodes a) →
      Delivers ts k' (given ++ nodes a) (f a) Q) : Delivers ts k given (p >>= f) Q :=
  (lays k reached).read held next

theorem Lays.widen (lays : Lays ts low n p) (room : low ≤ k ∧ i ≤ k ∧ least ≤ k + n) :
    Delivers ts k [] p (Gets ts i least) :=
  (lays k room.1).widen room.2

/-- A reader that takes the token at its place first, whichever it is, and lays its result over the
tokens from there on. What it reads inside of the result lies behind that token. -/
def Starts (ts : TokenList) (low : Nat) (p : Parser α) : Prop :=
  ∀ k, low ≤ k + 1 → k < ts.length → Delivers ts k [] p (Gets ts k (k + 1))

namespace Starts

theorem advance {f : Token → Parser α}
    (next : ∀ k, low ≤ k + 1 → Delivers ts (k + 1) [] (f (ts.get k)) (Gets ts k (k + 1))) :
    Starts ts low (Parser.advance >>= f) :=
  fun k reached inside => .advance inside (next k reached)

theorem start (starts : Starts ts low p) (kind : Kind) (notEnd : kind ≠ .eof)
    (there : ts.kind k = kind) (reached : low ≤ k + 1) :
    Delivers ts k [] p (Gets ts k (k + 1)) :=
  starts k reached (ts.inside there notEnd)

end Starts

/-! ### Lists of items -/

theorem delivers_collect {P : Option α → Nat → Prop}
    (reads : ∀ k', k ≤ k' → Delivers ts k' [] item fun x k'' =>
      Gets ts k' (k' + x.toList.length) x k'' ∧ P x k'') :
    Delivers ts k [] (collect item) fun xs k' =>
      Gets ts k k xs k' ∧ P none k' ∧ ∀ a ∈ xs, ∃ k'', P (some a) k'' := by
  apply delivers_repeated (I := fun (read : Array α) k' =>
    Gets ts k k read k' ∧ ∀ a ∈ read.toList, ∃ k'', P (some a) k'') (s := #[])
  · rintro read k' ⟨got, each⟩
    apply (reads k' got.reached).bind
    rintro found k'' ⟨next, last⟩
    have further := next.reached
    have := got.reached
    cases found with
    | none =>
      refine .pure ⟨⟨by omega, ?_⟩, last, each⟩ (by simp)
      simpa using got.laid.mono (Nat.le_refl k) (by omega)
    | some a =>
      have further : k' + 1 ≤ k'' := further
      refine .pure ⟨further, ⟨by omega, ?_⟩, ?_⟩ (by simp)
      · have all := (got.laid.mono (Nat.le_refl k) (by omega)).append
          (next.laid.mono got.reached (Nat.le_refl k''))
        simpa using all
      · rw [Array.toList_push]
        exact List.forall_mem_append.mpr ⟨each, List.forall_mem_singleton.mpr ⟨k'', last⟩⟩
  · exact ⟨⟨Nat.le_refl k, .here⟩, fun _ found => nomatch found⟩

theorem delivers_collectWhile {item : Parser α}
    (reads : ∀ k', k ≤ k' → ∀ c : Cursor, c.At ts k' → more c = true →
      Delivers ts k' [] item (Gets ts k' (k' + 1))) :
    Delivers ts k [] (collectWhile more item) fun xs k' =>
      Gets ts k k xs k' ∧ ∃ c : Cursor, c.At ts k' ∧ more c = false := by
  have reads : ∀ k', k ≤ k' → Delivers ts k' [] (do
      if more (← get) then Option.some <$> item else return none) fun x k'' =>
        Gets ts k' (k' + x.toList.length) x k'' ∧
          (x = none → ∃ c : Cursor, c.At ts k'' ∧ more c = false) := by
    intro k' behind
    apply Delivers.get_bind
    intro c here
    split
    · case isTrue goesOn =>
      apply Delivers.map _ (by simp)
      apply (reads k' behind c here goesOn).mono
      intro a k'' got
      exact ⟨⟨got.reached, by simpa using got.laid⟩, nofun⟩
    · case isFalse ends =>
      refine .pure ⟨⟨Nat.le_refl k', .here⟩, fun _ => ⟨c, here, ?_⟩⟩ (.refl _)
      simpa using ends
  exact (delivers_collect reads).mono fun xs k' got => ⟨got.1, got.2.1 rfl⟩

theorem lays_collectWhile {item : Parser α}
    (reads : ∀ k, low ≤ k → ∀ c : Cursor, c.At ts k → more c = true →
      Delivers ts k [] item (Gets ts k (k + 1))) :
    Lays ts low 0 (collectWhile more item) := by
  intro k reached
  apply (delivers_collectWhile fun k' behind => reads k' (by omega)).mono
  exact fun xs k' got => got.1

theorem lays_collectWhile_kind {kind : Kind} {item : Parser α}
    (reads : ∀ k, low ≤ k → ts.kind k = kind → Delivers ts k [] item (Gets ts k (k + 1))) :
    Lays ts low 0 (collectWhile (·.kind = kind) item) := by
  apply lays_collectWhile
  intro k reached c here more
  exact reads k reached (by simpa [here.kind] using more)

/-- Behind a comma there is still a token. -/
theorem delivers_afterCommas {P : α → Prop}
    (reads : ∀ k', k ≤ k' → k' < ts.length → Delivers ts k' [] item fun a k'' =>
      Gets ts k' k' a k'' ∧ P a) :
    Delivers ts k [] (afterCommas more item) fun xs k' => Gets ts k k xs k' ∧ ∀ a ∈ xs, P a := by
  have reads : ∀ k', k ≤ k' → Delivers ts k' [] (do
      if ← Parser.accept .comma then
        if more (← get) then Option.some <$> item else return none
      else return none) fun x k'' =>
        Gets ts k' (k' + x.toList.length) x k'' ∧ ∀ a ∈ x, P a := by
    intro k' behind
    apply Delivers.ifAccepted .comma nofun
    · intro comma
      apply Delivers.get_bind
      intro c here
      split
      · apply Delivers.map _ (by simp)
        apply (reads (k' + 1) (by omega) (ts.lt_length comma nofun)).mono
        rintro a k'' ⟨got, holds⟩
        have laid := got.laid.mono (Nat.le_succ k') (Nat.le_refl k'')
        exact ⟨⟨got.reached, by simpa using laid⟩, by simpa using holds⟩
      · exact .pure ⟨⟨Nat.le_succ k', .next⟩, nofun⟩ (.refl _)
    · intro _
      exact .pure ⟨⟨Nat.le_refl k', .here⟩, nofun⟩ (.refl _)
  apply (delivers_collect reads).mono
  rintro xs k' ⟨got, -, each⟩
  exact ⟨got, fun a found => (each a found).elim fun _ holds => holds a rfl⟩

theorem lays_afterCommas {item : Parser α} (reads : Lays ts low n item) :
    Lays ts low 0 (afterCommas more item) := by
  intro k reached
  apply (delivers_afterCommas (P := fun _ => True) fun k' behind _ => ?_).mono
  · exact fun xs k' got => got.1
  · exact (reads k' (by omega)).mono fun _ _ got =>
      ⟨⟨Nat.le_of_add_right_le got.reached, got.laid⟩, trivial⟩

/-- Items may reach back to place `i`. -/
theorem delivers_upTo {item : Parser α} (ordered : i ≤ k)
    (reads : ∀ k', k ≤ k' → Delivers ts k' [] item (Gets ts i k')) :
    Delivers ts k [] (upTo close item) (Gets ts i k) := by
  apply delivers_repeated (I := fun (read : Array α) k' => Gets ts i k read k') (s := #[])
  · intro read k' got
    have behind := got.reached
    apply Delivers.ifAt
    · intro _
      exact .pure ⟨behind, by simpa using got.laid⟩ (by simp)
    · intro _
      apply (reads k' behind).bind
      rintro a k'' ⟨further, laid⟩
      have held := (got.laid.mono (Nat.le_refl i) further).append laid
      apply Delivers.ifAccepted .comma nofun
      · intro _
        exact .pure ⟨by omega, by omega, by simpa using held.shift⟩ (by simp)
      · intro _
        exact .pure ⟨by omega, by simpa using held⟩ (by simp)
  · exact ⟨Nat.le_refl k, .nil i ordered⟩

theorem lays_upTo {item : Parser α} (reads : Lays ts low n item) :
    Lays ts low 0 (upTo close item) :=
  fun k reached => delivers_upTo (Nat.le_refl k) fun k' behind => reads.widen (by omega)

end
end FlowTypes
