import AccScript.Proofs.Assembly.Moves
import AccScript.Proofs.Code.Links

/-!
# What code takes from the tables

The tables of strings and literals are shared by all units and grow while units are assembled.  An
index that was handed out stays good: code names only strings that were asked for, which are still
where they were, and only literals that have been added.
-/

namespace AccScript

namespace Assembler

variable {E : VariableId → Prop} {a b : Assembler}

/-- The strings and literals of the code are in the tables. -/
structure Indexes (a : Assembler) : Prop where
  /-- No string is listed twice. -/
  distinct : a.strings.Nodup
  /-- A string that was asked for is at its place. -/
  spells : ∀ s id, (s, id) ∈ a.interned → a.strings[id.index]? = some s
  /-- A string that the code names was asked for. -/
  named : ∀ e ∈ a.code, ∀ id ∈ e.instruction.strings, ∃ s, (s, id) ∈ a.interned
  buffered : ∀ e ∈ a.code, ∀ k, e.instruction.literal? = some k → k < a.literals.size

theorem Indexes.push {e : Emitted} (h : a.Indexes)
    (named : ∀ id ∈ e.instruction.strings, ∃ s, (s, id) ∈ a.interned)
    (buffered : ∀ k, e.instruction.literal? = some k → k < a.literals.size) :
    Indexes { a with code := a.code.push e } where
  distinct := h.distinct
  spells := h.spells
  named d mem := by
    rcases Array.mem_push.mp mem with old | rfl
    · exact h.named d old
    · exact named
  buffered d mem := by
    rcases Array.mem_push.mp mem with old | rfl
    · exact h.buffered d old
    · exact buffered

theorem Move.indexes (move : Move E a b) (h : a.Indexes) : b.Indexes := by
  cases move with
  | idle same =>
    simp only [ledger, Ledger.mk.injEq] at same
    obtain ⟨strings, interned, literals, code, -, -⟩ := same
    exact ⟨strings ▸ h.distinct, by rw [strings, interned]; exact h.spells,
      by rw [code, interned]; exact h.named, by rw [code, literals]; exact h.buffered⟩
  | intern s =>
    refine ⟨nodup_insertNew h.distinct, fun t id mem => ?_, fun e mem id own => ?_, h.buffered⟩
    · rcases List.mem_cons.mp mem with same | old
      · cases same
        exact Tables.getElem?_insertNew a.strings s
      · exact Tables.getElem?_of_prefix (Tables.prefix_insertNew a.strings s) (h.spells t id old)
    · obtain ⟨t, mem⟩ := h.named e mem id own
      exact ⟨t, .tail _ mem⟩
  | addLiteral buffer =>
    exact ⟨h.distinct, h.spells, h.named, fun e mem k own =>
      Nat.lt_of_lt_of_le (h.buffered e mem k own) (by simp)⟩
  | @emit i site has =>
    refine h.push (fun id own => has (.string id) ?_) fun k own => has (.literal k) ?_
    · simp [Instruction.needs, show id ∈ i.strings from own]
    · simp [Instruction.needs, show i.literal? = some k from own]
  | load | store => exact h.push (by rintro _ ⟨⟩) (by rintro _ ⟨⟩)
  | bind | settle | retake | take | release => exact ⟨h.distinct, h.spells, h.named, h.buffered⟩

theorem Moves.indexes (moves : a.Moves E b) (h : a.Indexes) : b.Indexes := by
  induction moves with
  | refl => exact h
  | tail _ move ih => exact move.indexes ih

end Assembler

end AccScript
