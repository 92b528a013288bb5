import AccScript.Proofs.Lowering.Program

/-!
# Instructions in a row

What a few steps of the assembler emit, as a list.  `Assembler.Follows` relates two states by the
instructions between them; the lemmas say it for the steps that code is made of.
-/

namespace AccScript

open Asm Lower

def Assembler.instructions (a : Assembler) : List Instruction :=
  a.code.toList.map Emitted.instruction

/-- One state of an assembler follows another by the given instructions, with the given temporaries
taken. -/
structure Assembler.Follows (a b : Assembler) (part : List Instruction) (temps : List Register) :
    Prop where
  emitted : b.instructions = a.instructions ++ part
  locals : b.locals = a.locals
  strings : a.strings <+: b.strings
  allocates : b.Allocates temps

namespace Assembler.Follows

variable {a b c : Assembler} {part part' : List Instruction} {temps temps' : List Register}

theorem refl (h : a.Allocates temps) : a.Follows a [] temps :=
  ⟨(List.append_nil _).symm, rfl, List.prefix_refl _, h⟩

theorem trans (h : a.Follows b part temps) (next : b.Follows c part' temps') :
    a.Follows c (part ++ part') temps' where
  emitted := by rw [next.emitted, h.emitted, List.append_assoc]
  locals := next.locals.trans h.locals
  strings := h.strings.trans next.strings
  allocates := next.allocates

/-- A string that has been told its place keeps it. -/
theorem getElem?_strings (h : a.Follows b part temps) {i : Nat} {s : String}
    (found : a.strings[i]? = some s) : b.strings[i]? = some s :=
  Tables.getElem?_of_prefix h.strings found

end Assembler.Follows

theorem Lower.run_bind_of_ok {α β : Type} {m : Lower α} {f : α → Lower β} {env : Env}
    {a b : Assembler} {x : α} (run : m env a = .ok (x, b)) : (m >>= f) env a = f x env b := by
  show (m env a >>= fun p => f p.1 env p.2) = _
  rw [run]
  rfl

theorem Asm.run_bind_of_ok {α β : Type} {m : Asm α} {f : α → Asm β} {a b : Assembler} {x : α}
    (run : m a = .ok (x, b)) : (m >>= f) a = f x b := by
  show (m a >>= fun p => f p.1 p.2) = _
  rw [run]
  rfl

namespace Assembler.Allocates

variable {a : Assembler} {temps : List Register}

theorem follows_emit (h : a.Allocates temps) (i : Instruction) :
    ∃ b, emit i a = .ok ((), b) ∧ a.Follows b [i] temps := by
  refine ⟨_, rfl, ?_, rfl, List.prefix_refl _, h.congr rfl rfl rfl⟩
  simp [Assembler.instructions]

theorem follows_emitAt (h : a.Allocates temps) (env : Env) (subject : Subject) (i : Instruction) :
    ∃ b, emitAt subject i env a = .ok ((), b) ∧ a.Follows b [i] temps := by
  refine ⟨_, rfl, ?_, rfl, List.prefix_refl _, h.congr rfl rfl rfl⟩
  simp [Assembler.instructions]

theorem follows_getTemp (h : a.Allocates temps) :
    ∃ t b, getTemp a = .ok (t, b) ∧ a.Follows b [] (t :: temps) := by
  cases free : a.freeTemps with
  | nil =>
    refine ⟨⟨a.nextRegister⟩, _, ?_, ?_, ?_, ?_, h.hold_next.record⟩
    · exact run_bind_of_ok (run_unusedRegister_nil free)
    all_goals simp [Assembler.instructions]
  | cons r rest =>
    refine ⟨r, _, ?_, ?_, ?_, ?_, (h.hold_free free).record⟩
    · exact run_bind_of_ok (run_unusedRegister_cons free)
    all_goals simp [Assembler.instructions]

theorem follows_freeTemps (given : List Register) (h : a.Allocates (given ++ temps)) :
    ∃ b, Asm.freeTemps given a = .ok ((), b) ∧ a.Follows b [] temps := by
  obtain ⟨enough, released⟩ := h.release (.refl _)
  refine ⟨_, ?_, ?_, ?_, ?_, released.record⟩
  · show (if a.liveTemps < given.length then throw (@Failure.broken .temporaries) else _ : Code) a = _
    rw [if_neg (Nat.not_lt.mpr enough)]
    rfl
  all_goals simp [Assembler.instructions]

theorem follows_intern (h : a.Allocates temps) (s : String) :
    ∃ id b, intern s a = .ok (id, b) ∧ a.Follows b [] temps ∧ b.strings[id.index]? = some s := by
  refine ⟨_, _, rfl, ⟨?_, rfl, Tables.prefix_insertNew _ _, h.congr rfl rfl rfl⟩,
    Tables.getElem?_insertNew _ _⟩
  simp [Assembler.instructions]

end Assembler.Allocates

end AccScript
