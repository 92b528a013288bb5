import AccScript.Proofs.Code.Keys
import AccScript.Proofs.Code.Protection

/-!
# Loads and stores of variables

A name is resolved from the scope of its environment, and one or two instructions load or store what
it stands for.  A `let`, `const` or class in a register has no value until its declaration; a read
that comes before is compiled to a check that throws.  Whether it comes before is decided in the
order in which code is emitted, not in the order in which it runs: a `switch` can leap over a
declaration to a read of the register, as `reads_unset` shows.
-/

namespace AccScript

open Asm Lower

variable {env : Env} {a b : Assembler}

variable {u : CompiledUnit}

namespace CompiledUnit

/-- One step of control: to the next instruction, to the label of a jump, or from a protected
instruction to the handler. -/
inductive Step (u : CompiledUnit) (i : Nat) : Nat → Prop
  | next {e : Emitted} : u.code[i]? = some e → e.instruction.isTerminator = false → u.Step i (i + 1)
  | jump {e : Emitted} {l : Label} {j : Nat} : u.code[i]? = some e →
      e.instruction.target? = some l → u.HasLabelAt l j → u.Step i j
  | raise {table : CatchTable} {j : Nat} : table ∈ u.catchTables → i ∈ u.protectedBy table →
      u.HasLabelAt table.handler j → u.Step i j

/-- The places that control passes from the start of a unit. -/
structure Path (u : CompiledUnit) (places : List Nat) : Prop where
  start : places.head? = some 0
  steps : places.IsChain u.Step

def StoresAt (u : CompiledUnit) (r : Register) (j : Nat) : Prop :=
  ∃ e : Emitted, u.code[j]? = some e ∧ e.instruction = .sta r

end CompiledUnit

/-- A `switch` with a declaration in its first case and a read in its second. -/
def Program.skipper : Program :=
  let ident (name : String) : Expr := ⟨⟨1, 0⟩, .identifier name⟩
  let number (n : Nat) : Expr := ⟨⟨1, 0⟩, .number (.ofNat n)⟩
  let statement (id : NodeId) (kind : StatementKind) : Statement := ⟨id, ⟨1, 0⟩, kind⟩
  let declare : Statement := statement 7 (.variableDecl
    ⟨.let, [⟨⟨1, 0⟩, .identifier ⟨"y", 8⟩, some (number 1)⟩]⟩ false)
  let choice : Statement := statement 5 (.switch (ident "x") [
    ⟨some (number 0), [declare, statement 9 (.break none)]⟩,
    ⟨some (number 1), [statement 11 (.return (some (ident "y")))]⟩])
  let f : FunctionNode := ⟨1, ⟨1, 0⟩, some ⟨"f", 2⟩, .normal, false,
    [⟨⟨1, 0⟩, .identifier ⟨"x", 3⟩, none, false⟩], .block ⟨4, [choice]⟩, false⟩
  { id := 0, position := ⟨1, 0⟩, statements := [statement 12 (.functionDecl f .none)]
    isStrict := false, nextNodeId := 13, derivedFrom := [] }

/-- The code of the function of the example. -/
def skipperCode : List Instruction :=
  [.lda ⟨3⟩, .sta ⟨4⟩, .ldai 0, .binary .strictEq ⟨4⟩, .jnez ⟨1⟩, .ldai 1, .binary .strictEq ⟨4⟩,
    .jnez ⟨2⟩, .jmp ⟨0⟩, .label ⟨1⟩, .ldai 1, .sta ⟨5⟩, .jmp ⟨0⟩, .label ⟨2⟩, .lda ⟨5⟩, .return,
    .label ⟨0⟩, .returnUndefined]

/-- Control gets to the second case, and to the read, past the declaration. -/
theorem path_skipper (code : u.code.map Emitted.instruction = skipperCode) :
    u.Path [0, 1, 2, 3, 4, 5, 6, 7, 13, 14] := by
  have emitted {i : Nat} {x : Instruction} (found : skipperCode[i]? = some x) :
      ∃ e : Emitted, u.code[i]? = some e ∧ e.instruction = x := by
    rw [← code, List.getElem?_map] at found
    exact Option.map_eq_some_iff.mp found
  have falls (i : Nat) {x : Instruction} (found : skipperCode[i]? = some x)
      (goes : x.isTerminator = false) : u.Step i (i + 1) := by
    obtain ⟨e, here, rfl⟩ := emitted found
    exact .next here goes
  have leaps : u.Step 7 13 := by
    obtain ⟨e, here, jump⟩ := emitted (i := 7) (x := .jnez ⟨2⟩) rfl
    exact .jump (l := ⟨2⟩) here (by rw [jump]; rfl) (emitted rfl)
  exact ⟨rfl, .cons_cons (falls 0 rfl rfl) <| .cons_cons (falls 1 rfl rfl) <|
    .cons_cons (falls 2 rfl rfl) <| .cons_cons (falls 3 rfl rfl) <| .cons_cons (falls 4 rfl rfl) <|
    .cons_cons (falls 5 rfl rfl) <| .cons_cons (falls 6 rfl rfl) <| .cons_cons leaps <|
    .cons_cons (falls 13 rfl rfl) <| .singleton _⟩

set_option maxRecDepth 100000 in
/-- In the example the variable is read on a path that never stores it. -/
theorem reads_unset :
    ∃ c result data, CompileContext.ofProgram .skipper {} (fun _ => none) = .ok c ∧
      c.survey.tree.resolve 3 "y" false = .ok (.register 8) ∧
      c.survey.tree.var? 8 = some data ∧ data.kind = .let ∧ data.startsInitialized = false ∧
      c.run = .ok result ∧ ∃ u ∈ result.units, ∃ front k e, u.Path (front ++ [k]) ∧
        u.code[k]? = some e ∧ e.instruction = .lda ⟨5⟩ ∧ ∀ j ∈ front, ¬u.StoresAt ⟨5⟩ j := by
  have facts : ((CompileContext.ofProgram .skipper {} fun _ => none).bind fun c =>
      c.run.map fun result => ((c.survey.tree.resolve 3 "y" false).toOption,
        (c.survey.tree.var? 8).map (fun data => (data.kind, data.startsInitialized)),
        result.units.any fun u => u.code.map Emitted.instruction = skipperCode)).toOption =
      some (some (.register 8), some (.let, false), true) := by
    decide +kernel
  obtain ⟨c, result, analyzed, compiled, seen⟩ := exists_of_compiled facts
  obtain ⟨resolves, rest⟩ := Prod.mk.inj seen
  obtain ⟨kinds, found⟩ := Prod.mk.inj rest
  obtain ⟨data, known, same⟩ := Option.map_eq_some_iff.mp kinds
  obtain ⟨kind, starts⟩ := Prod.mk.inj same
  obtain ⟨u, mem, code⟩ := List.any_eq_true.mp found
  have code := of_decide_eq_true code
  have load : (u.code.map Emitted.instruction)[14]? = some (.lda ⟨5⟩) := by rw [code]; rfl
  rw [List.getElem?_map] at load
  obtain ⟨e, here, isLoad⟩ := Option.map_eq_some_iff.mp load
  refine ⟨c, result, data, analyzed, eq_ok_of_toOption resolves, known, kind, starts, compiled, u,
    mem, [0, 1, 2, 3, 4, 5, 6, 7, 13], 14, e, path_skipper code, here, isLoad, ?_⟩
  rintro j passed ⟨d, there, store⟩
  have stored : skipperCode[j]? = some (.sta ⟨5⟩) := by
    rw [← code, List.getElem?_map, there]
    exact congrArg some store
  simp only [List.mem_cons, List.not_mem_nil, or_false] at passed
  rcases passed with rfl | rfl | rfl | rfl | rfl | rfl | rfl | rfl | rfl <;> cases stored

end AccScript
