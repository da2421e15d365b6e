import FlowTypes.Proofs.Extent.Statements

/-! Reading a module ends on every list of tokens. Repetitions and nested readers have an allowance,
the number of tokens that are left, and an answer of its own would say that it was used up. No list
leads to that answer: every expression, statement and block takes a token, so that the allowance
lasts as long as the tokens do. -/
namespace FlowTypes

variable {ts : TokenList} {k : Nat} {c : Cursor}

/-- The answer of a reader without allowance is not put down to any token. -/
theorem TokenList.not_refuses_exhausted (refuses : ts.Refuses e) :
    (Parser.exhausted : Parser α) c ≠ .error e := by
  rintro ⟨⟩
  obtain ⟨t, -, -, blames⟩ := refuses
  exact blames

theorem Lays.advances [Content α] {p : Parser α} (lays : Lays ts low 1 p) (here : c.At ts k)
    (reached : low ≤ k) : Settled ts (fun _ k' => k < k') (p c) :=
  ((lays k reached).mono (fun _ _ got => got.reached) c here).settled

namespace Grammar

theorem module_settled : (∃ m c k, module file (.ofTokens tokens file firstId) = .ok (m, c) ∧
      c.At (.ofTokens tokens file) k ∧ c.kind = .eof) ∨
    ∃ e, module file (.ofTokens tokens file firstId) = .error e ∧
      (TokenList.ofTokens tokens file).Refuses e := by
  have settled := (module_reads (Cursor.at_ofTokens tokens file firstId) file).1
  generalize module file (.ofTokens tokens file firstId) = outcome at settled ⊢
  cases settled with
  | @read m c k there holds => exact .inl ⟨m, c, k, rfl, there, there.kind.trans holds.1⟩
  | @refused e refuses => exact .inr ⟨e, rfl, refuses⟩

end Grammar

/-- From every list of tokens a module is read up to a mark for the end, or there is an error that is
put down to a token of the list. On the way, and from any place of any list, an expression, a statement
or a block is refused or ends at a later place. -/
theorem reading_ends (tokens : List Token) (file : String) (firstId : NodeId) :
    ((∃ m c k, Grammar.module file (.ofTokens tokens file firstId) = .ok (m, c) ∧
        c.At (.ofTokens tokens file) k ∧ c.kind = .eof ∧
        Module.ofTokens tokens file firstId = .ok (m, c.nextId)) ∨
      ∃ e, Module.ofTokens tokens file firstId = .error e ∧
        (TokenList.ofTokens tokens file).Refuses e ∧
        ∀ c, (Parser.exhausted : Parser Module) c ≠ .error e) ∧
    ∀ (ts : TokenList) (k : Nat) (c : Cursor) (room : Nat), c.At ts k → c.rest.length < room →
      (∀ power, Settled ts (fun _ k' => k < k') (Grammar.exprWithin room power c)) ∧
      Settled ts (fun _ k' => k < k') ((Grammar.nestedWithin room).stmt c) ∧
      Settled ts (fun _ k' => k < k') (Grammar.block (Grammar.nestedWithin room) c) := by
  constructor
  · rcases Grammar.module_settled with
      ⟨m, c, k, read, there, ended⟩ | ⟨e, failed, refuses⟩
    · refine .inl ⟨m, c, k, read, there, ended, ?_⟩
      rw [Module.ofTokens, read]
      rfl
    · refine .inr ⟨e, ?_, refuses, fun c => TokenList.not_refuses_exhausted refuses⟩
      rw [Module.ofTokens, failed]
      rfl
  · intro ts k c room here enough
    have left := here.length
    have reached : ts.length + 1 - room ≤ k := by omega
    have nested : (Grammar.nestedWithin room).Lays ts (ts.length + 1 - room) :=
      Grammar.lays_nestedWithin room
    refine ⟨fun power => ?_, ?_, ?_⟩
    · exact (Grammar.lays_exprWithin room power).advances here reached
    · exact nested.stmt.advances here reached
    · exact (Grammar.lays_block nested).advances here reached

/-- An import without a name, where the mark for the end is spelled like one. -/
def TokenList.unfinished : List Token :=
  [⟨.kwImport, "import", ⟨⟨0, "m"⟩, ⟨6, "m"⟩⟩⟩, ⟨.eof, "if", ⟨⟨6, "m"⟩, ⟨6, "m"⟩⟩⟩]

/-- The mark is taken for the name, and the reader still stands at a mark behind it. -/
theorem unfinished_ends :
    (∃ m c k, Grammar.module "m" (.ofTokens TokenList.unfinished "m" 0) = .ok (m, c) ∧
      c.At (.ofTokens TokenList.unfinished "m") k ∧ c.kind = .eof) ∧
    (Cursor.ofTokens TokenList.unfinished "m" 0).At (.ofTokens TokenList.unfinished "m") 0 ∧
    (Cursor.ofTokens TokenList.unfinished "m" 0).rest.length < 3 ∧
    Settled (.ofTokens TokenList.unfinished "m") (fun _ k' => 0 < k')
      ((Grammar.nestedWithin 3).stmt (.ofTokens TokenList.unfinished "m" 0)) := by
  have isOk : (Module.ofTokens TokenList.unfinished "m" 0).isOk = true := by decide
  have here := Cursor.at_ofTokens TokenList.unfinished "m" 0
  have room : (Cursor.ofTokens TokenList.unfinished "m" 0).rest.length < 3 := by decide
  obtain ⟨ends, advances⟩ := reading_ends TokenList.unfinished "m" 0
  refine ⟨?_, here, room, (advances _ 0 _ 3 here room).2.1⟩
  rcases ends with ⟨m, c, k, read, there, ended, -⟩ | ⟨e, failed, -⟩
  · exact ⟨m, c, k, read, there, ended⟩
  · rw [failed] at isOk
    cases isOk

end FlowTypes
