import AccScript.Proofs.Code.Segments

/-!
# Keys of properties

A key whose name stands in the source becomes part of the instruction that uses it, and takes no code
of its own.  Any other key is evaluated into a register.

The definitions of an object literal do not always come in the order of the source: an accessor is
defined together with the other half of its pair, and `buries_setter` shows a value that stands
between the two and comes last.
-/

namespace AccScript

open Asm Lower

variable {env : Env} {a b : Assembler} {operand : KeyOperand}

/-- The name of a key that does not depend on the run. -/
def PropertyKey.fixedName? : PropertyKey → Option String
  | .identifier name | .string name | .computed ⟨_, .string name⟩ => some name
  | .number value | .computed ⟨_, .number value⟩ => some value.propertyName
  | .computed _ => none

/-- A key is at hand: without any code, or in a register that its value was stored to. -/
inductive PropertyKey.Readies (key : PropertyKey) (env : Env) (a b : Assembler) : KeyOperand → Prop
  | fixed {name : String} {operand : KeyOperand} : key.fixedName? = some name →
      operand.name? = some name → b = a → key.Readies env a b operand
  | computed {e : Expr} {c : Assembler} {r : Register} : key.fixedName? = none → key = .computed e →
      e.lower env a = .ok ((), c) → b.instructions = c.instructions ++ [.sta r] →
      key.Readies env a b (.value r)

/-- An index has the name that its number has as a property. -/
theorem KeyOperand.name?_ofNumber (value : Binary64) :
    (KeyOperand.ofNumber value).name? = some value.propertyName := by
  unfold KeyOperand.ofNumber Binary64.propertyName
  cases value.toInt? with
  | none => rfl
  | some n =>
    cases n with
    | negSucc n => rfl
    | ofNat n =>
      dsimp only
      split
      · rename_i small
        have below : (Int.ofNat n).natAbs < 1000000000000000000000 := by
          have : (Int.ofNat n).natAbs = n := rfl
          omega
        have unclamped : Binary64.clampInt64 (Int.ofNat n) = n := by
          simp only [Binary64.clampInt64, Int.ofNat_eq_natCast]
          omega
        rw [if_pos below, unclamped]
        rfl
      · rfl

theorem instructions_of_getTemp {r : Register} (run : getTemp a = .ok (r, b)) :
    b.instructions = a.instructions := by
  cases free : a.freeTemps with
  | nil =>
    cases (run_bind_of_ok (run_unusedRegister_nil free)).symm.trans run
    rfl
  | cons r rest =>
    cases (run_bind_of_ok (run_unusedRegister_cons free)).symm.trans run
    rfl

theorem instructions_of_storeTemp {r : Register} (run : storeTemp a = .ok (r, b)) :
    b.instructions = a.instructions ++ [.sta r] := by
  obtain ⟨⟨r', c⟩, taken, run⟩ := exists_of_bind_eq_ok run
  cases run
  rw [← instructions_of_getTemp taken]
  simp [Assembler.instructions]

theorem exists_of_valueKey {code : Lower Unit} (run : valueKey code env a = .ok (operand, b)) :
    ∃ c r, code env a = .ok ((), c) ∧ operand = .value r ∧
      b.instructions = c.instructions ++ [.sta r] := by
  obtain ⟨⟨_, c⟩, ran, run⟩ := exists_of_bind_eq_ok run
  obtain ⟨⟨r, d⟩, stored, same⟩ := exists_of_bind_eq_ok (x := storeTemp c) run
  cases same
  exact ⟨c, r, ran, rfl, instructions_of_storeTemp stored⟩

theorem PropertyKey.readies_of_run {key : PropertyKey} (run : key.lower env a = .ok (operand, b)) :
    key.Readies env a b operand := by
  unfold PropertyKey.lower at run
  cases key with
  | identifier | string =>
    cases run
    exact .fixed rfl rfl rfl
  | number value =>
    cases run
    exact .fixed rfl (KeyOperand.name?_ofNumber value) rfl
  | computed e =>
    obtain ⟨position, kind⟩ := e
    unfold Expr.lowerKey at run
    cases kind with
    | string =>
      cases run
      exact .fixed rfl rfl rfl
    | number value =>
      cases run
      exact .fixed rfl (KeyOperand.name?_ofNumber value) rfl
    | _ =>
      obtain ⟨c, r, ran, rfl, stored⟩ := exists_of_valueKey run
      exact .computed rfl rfl ran stored

theorem PropertyKey.Readies.name?_eq {key : PropertyKey} (h : key.Readies env a b operand) :
    operand.name? = key.fixedName? := by
  cases h with
  | fixed named same => rw [named, same]
  | computed unnamed => rw [unnamed]; rfl

/-- The program `({ get a() {}, a: v, set a(w) {} })`. -/
def Program.burying : Program where
  id := 0
  position := ⟨1, 0⟩
  statements := [⟨1, ⟨1, 0⟩, .expression ⟨⟨1, 0⟩, .object [
    .method (.identifier "a") ⟨2, ⟨1, 0⟩, none, .getter, false, [], .block ⟨3, []⟩, false⟩,
    .keyValue (.identifier "a") ⟨⟨1, 0⟩, .identifier "v"⟩,
    .method (.identifier "a") ⟨4, ⟨1, 0⟩, none, .setter, false,
      [⟨⟨1, 0⟩, .identifier ⟨"w", 5⟩, none, false⟩], .block ⟨6, []⟩, false⟩]⟩⟩]
  isStrict := false
  nextNodeId := 7
  derivedFrom := []

/-- Getter and setter are defined first, then the value, so that `a` ends as a value; in the order of
the source it ends as a setter. -/
theorem buries_setter :
    ∃ c result, CompileContext.ofProgram .burying {} (fun _ => none) = .ok c ∧ c.run = .ok result ∧
      result.strings = ["a", "#1#", "#2#", "v"] ∧ ∃ u, result.unit? "func_main_0" = some u ∧
        u.instructions = [.createEmptyObject, .sta ⟨3⟩, .ldaStr ⟨0⟩, .sta ⟨4⟩, .lda ⟨3⟩,
          .defineMethod ⟨1⟩ 0, .sta ⟨5⟩, .lda ⟨3⟩, .defineMethod ⟨2⟩ 1, .sta ⟨6⟩,
          .defineGetterSetterByValue ⟨3⟩ ⟨4⟩ ⟨5⟩ ⟨6⟩, .global .tryLoad ⟨3⟩, .stOwnByName ⟨0⟩ ⟨3⟩,
          .lda ⟨3⟩, .returnUndefined] := by
  have views : ((CompileContext.ofProgram .burying {} (fun _ => none)).bind fun c => c.run.map
      fun result => (result.strings, (result.unit? "func_main_0").map CompiledUnit.instructions)).toOption =
      some (["a", "#1#", "#2#", "v"], some [.createEmptyObject, .sta ⟨3⟩, .ldaStr ⟨0⟩, .sta ⟨4⟩,
        .lda ⟨3⟩, .defineMethod ⟨1⟩ 0, .sta ⟨5⟩, .lda ⟨3⟩, .defineMethod ⟨2⟩ 1, .sta ⟨6⟩,
        .defineGetterSetterByValue ⟨3⟩ ⟨4⟩ ⟨5⟩ ⟨6⟩, .global .tryLoad ⟨3⟩, .stOwnByName ⟨0⟩ ⟨3⟩,
        .lda ⟨3⟩, .returnUndefined]) := by
    decide +kernel
  obtain ⟨c, result, analyzed, compiled, seen⟩ := exists_of_compiled views
  obtain ⟨strings, code⟩ := Prod.mk.inj seen
  obtain ⟨u, found, code⟩ := Option.map_eq_some_iff.mp code
  exact ⟨c, result, analyzed, compiled, strings, u, found, code⟩

end AccScript
