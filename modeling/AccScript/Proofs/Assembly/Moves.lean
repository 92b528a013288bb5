import AccScript.Assembler.Control
import AccScript.Proofs.Code.Operands
import AccScript.Proofs.Text.OrderedMap
import Mathlib.Logic.Relation

/-!
# Moves of an assembler

Lowering changes an assembler in few ways.  `Assembler.Move` lists them, each with what must be at
hand for it: an instruction names only temporaries that have been taken, strings that have been asked
for and literals that have been added; the register of a variable is loaded only if the variable is
ready.  What an assembler has at hand it never loses.

Invariants of a unit are proved from these moves alone.
-/

namespace AccScript

/-- What code can have at hand. -/
inductive Resource where
  /-- A register that has been taken as a temporary. -/
  | temp (r : Register)
  /-- A string that the unit has asked for. -/
  | string (id : StringId)
  /-- A buffer of literals that has been added. -/
  | literal (index : Nat)
  /-- A variable that has a value. -/
  | ready (v : VariableId)
deriving DecidableEq, Repr

/-- What an instruction must have at hand, unless it is an access to the register of a variable. -/
def Instruction.needs (i : Instruction) : List Resource :=
  i.registers.map .temp ++ i.strings.map .string ++ i.literal?.toList.map .literal

namespace Assembler

variable {E : VariableId → Prop} {a b : Assembler}

def Has (E : VariableId → Prop) (a : Assembler) : Resource → Prop
  | .temp r => r ∈ a.live ∨ r ∈ a.freeTemps
  | .string id => ∃ s, (s, id) ∈ a.interned
  | .literal index => index < a.literals.size
  | .ready v => v ∈ a.initialized ∨ E v

/-- The part of an assembler that moves speak of. -/
structure Ledger where
  strings : List String
  interned : List (String × StringId)
  literals : Array LiteralBuffer
  code : Array Emitted
  registers : RegisterState
  initialized : List VariableId

def ledger (a : Assembler) : Ledger :=
  ⟨a.strings, a.interned, a.literals, a.code, a.registers, a.initialized⟩

/-- One change of an assembler. -/
inductive Move (E : VariableId → Prop) (a : Assembler) : Assembler → Prop
  /-- Labels, boundaries and whatever else has no part in the ledger. -/
  | idle {b : Assembler} (same : b.ledger = a.ledger) : Move E a b
  | intern (s : String) :
      Move E a { a with
        strings := insertNew a.strings s
        interned := (s, ⟨(insertNew a.strings s).idxOf s⟩) :: a.interned }
  | addLiteral (buffer : LiteralBuffer) : Move E a { a with literals := a.literals.push buffer }
  | emit {i : Instruction} (site : Option Site) (has : ∀ x ∈ i.needs, a.Has E x) :
      Move E a { a with code := a.code.push ⟨i, a.origin, a.placement site⟩ }
  /-- A variable gets a register; only those in `E` can get one anew. -/
  | bind {v : VariableId} (unbound : a.locals.get? v = none ∨ E v) :
      Move E a { a with
        nextRegister := a.nextRegister + 1
        locals := a.locals.insert v ⟨a.nextRegister⟩ }
  | load {v : VariableId} {r : Register} (bound : a.locals.get? v = some r)
      (ready : a.Has E (.ready v)) :
      Move E a { a with code := a.code.push ⟨.lda r, a.origin, a.placement none⟩ }
  | store {v : VariableId} {r : Register} (bound : a.locals.get? v = some r) :
      Move E a { a with code := a.code.push ⟨.sta r, a.origin, a.placement none⟩ }
  /-- A variable counts as initialized, behind a store to its register. -/
  | settle {v : VariableId}
      (stored : a.Has E (.ready v) ∨
        ∃ r, a.locals.get? v = some r ∧ ∃ e ∈ a.code, e.instruction = .sta r) :
      Move E a { a with initialized := insertNew a.initialized v }
  /-- A temporary that was given back is taken again. -/
  | retake {r : Register} {rest : List Register} (free : a.freeTemps = r :: rest) :
      Move E a { a with freeTemps := rest, liveTemps := a.liveTemps + 1, live := r :: a.live }
  /-- A new temporary. -/
  | take :
      Move E a { a with
        nextRegister := a.nextRegister + 1
        liveTemps := a.liveTemps + 1
        live := ⟨a.nextRegister⟩ :: a.live }
  | release {temps : List Register} (has : ∀ r ∈ temps, a.Has E (.temp r)) :
      Move E a { a with
        freeTemps := temps ++ a.freeTemps
        liveTemps := a.liveTemps - temps.length
        live := temps.foldl List.erase a.live }

/-- Any number of changes. -/
abbrev Moves (E : VariableId → Prop) : Assembler → Assembler → Prop :=
  Relation.ReflTransGen (Move E)

/-! ## Nothing is lost -/

theorem has_congr (same : b.ledger = a.ledger) (x : Resource) : b.Has E x ↔ a.Has E x := by
  simp only [ledger, Ledger.mk.injEq] at same
  obtain ⟨-, interned, literals, -, registers, initialized⟩ := same
  have live : b.live = a.live := congrArg RegisterState.live registers
  have free : b.freeTemps = a.freeTemps := congrArg RegisterState.free registers
  cases x <;> simp only [Has, interned, literals, live, free, initialized]

theorem mem_foldl_erase {r : Register} {temps live : List Register} (mem : r ∈ live)
    (kept : r ∉ temps) : r ∈ temps.foldl List.erase live := by
  induction temps generalizing live with
  | nil => exact mem
  | cons t temps ih =>
    have other : r ≠ t := fun same => kept (same ▸ List.mem_cons_self)
    exact ih ((List.mem_erase_of_ne other).mpr mem) fun later => kept (.tail _ later)

theorem Move.has (move : Move E a b) {x : Resource} (h : a.Has E x) : b.Has E x := by
  cases move with
  | idle same => exact (has_congr same x).mpr h
  | intern s =>
    cases x with
    | string id =>
      obtain ⟨t, mem⟩ := h
      exact ⟨t, .tail _ mem⟩
    | _ => exact h
  | addLiteral buffer =>
    cases x with
    | literal index => exact Nat.lt_of_lt_of_le h (by simp)
    | _ => exact h
  | settle stored =>
    cases x with
    | ready w => exact h.imp_left fun mem => mem_insertNew.mpr (.inl mem)
    | _ => exact h
  | retake free =>
    cases x with
    | temp r =>
      rcases h with live | mem
      · exact .inl (.tail _ live)
      · rcases List.mem_cons.mp (free ▸ mem) with rfl | later
        · exact .inl (.head _)
        · exact .inr later
    | _ => exact h
  | take =>
    cases x with
    | temp r => exact h.imp_left (List.mem_cons_of_mem _)
    | _ => exact h
  | @release temps has =>
    cases x with
    | temp r =>
      by_cases given : r ∈ temps
      · exact .inr (List.mem_append_left _ given)
      · exact h.imp (mem_foldl_erase · given) (List.mem_append_right _)
    | _ => exact h
  | emit | bind | load | store => cases x <;> exact h

theorem Moves.has (moves : a.Moves E b) {x : Resource} (h : a.Has E x) : b.Has E x := by
  induction moves with
  | refl => exact h
  | tail _ move ih => exact move.has ih

end Assembler

end AccScript
