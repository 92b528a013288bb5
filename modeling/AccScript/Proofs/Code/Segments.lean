import AccScript.Proofs.Code.Rows

/-!
# Code in segments

The code of a construct is made of its own instructions and of the code of its parts, which may be
anything.  `Makes` divides it so: a machine runs the instructions one by one and a part as a whole,
which spares the temporaries that are live around it.
-/

namespace AccScript

open Asm

variable {ι α β : Type} {lowers : ι → Code} {G : Guard} {σ ρ : Stage} {env : Env} {a b : Assembler}

/-- The code that a part was lowered to. -/
structure Inner (lowers : ι → Code) where
  of : ι
  code : List Instruction
  produced : ∃ a b, lowers of a = .ok ((), b) ∧ b.instructions = a.instructions ++ code

def Inner.written (part : Inner lowers) : List Register :=
  part.code.flatMap Instruction.written

/-- An instruction of the construct itself, or a part of it. -/
abbrev Segment (lowers : ι → Code) := Instruction ⊕ Inner lowers

def Segment.code : Segment lowers → List Instruction
  | .inl i => [i]
  | .inr part => part.code

/-- Code leads from one stage to another and adds segments of which something is known. -/
def Makes (G : Guard) (σ : Stage) (m : Asm α) (τ : α → Stage)
    (P : α → List (Segment lowers) → Prop) : Prop :=
  ∀ a x b, Sound G σ a → m a = .ok (x, b) → Sound G (τ x) b ∧
    ∃ segments, b.instructions = a.instructions ++ segments.flatMap Segment.code ∧ P x segments

namespace Makes

variable {m : Asm α} {τ : α → Stage} {υ : β → Stage} {P : α → List (Segment lowers) → Prop}
  {Q : β → List (Segment lowers) → Prop}

theorem pure {y : β} (h : Q y []) : Makes G (υ y) (Pure.pure y) υ Q := by
  rintro a x b sound ⟨⟩
  exact ⟨sound, [], by simp, h⟩

theorem bind {f : α → Asm β} (first : Makes G σ m τ P)
    (next : ∀ x ps, P x ps → Makes G (τ x) (f x) υ fun y qs => Q y (ps ++ qs)) :
    Makes G σ (m >>= f) υ Q := by
  intro a y c sound run
  obtain ⟨⟨x, b⟩, ran, rest⟩ := exists_of_bind_eq_ok run
  obtain ⟨sound', ps, emitted, known⟩ := first a x b sound ran
  obtain ⟨sound'', qs, emitted', known'⟩ := next x ps known b y c sound' rest
  exact ⟨sound'', ps ++ qs, by simp [emitted, emitted'], known'⟩

theorem follow {m : Lower α} {f : α → Lower β} (first : Makes G σ (m env) τ P)
    (next : ∀ x ps, P x ps → Makes G (τ x) (f x env) υ fun y qs => Q y (ps ++ qs)) :
    Makes G σ ((m >>= f) env) υ Q :=
  first.bind next

theorem step {f : α → Lower β} (first : Makes G σ m τ P)
    (next : ∀ x ps, P x ps → Makes G (τ x) (f x env) υ fun y qs => Q y (ps ++ qs)) :
    Makes G σ ((liftM m >>= f) env) υ Q :=
  first.bind next

theorem imp {P' : α → List (Segment lowers) → Prop} (h : Makes G σ m τ P)
    (weaker : ∀ x ps, P x ps → P' x ps) : Makes G σ m τ P' := by
  intro a x b sound run
  obtain ⟨sound', ps, emitted, known⟩ := h a x b sound run
  exact ⟨sound', ps, emitted, weaker x ps known⟩

/-- What is true of every sound state may be used. -/
theorem given {F : Prop} (fact : ∀ a, Sound G σ a → F) (h : F → Makes G σ m τ P) :
    Makes G σ m τ P :=
  fun a x b sound => h (fact a sound) a x b sound

/-- Labels that still wait for their place are not in the code that was made. -/
theorem fresh (watched : G.watched) (h : Makes G σ m τ P) : Makes G σ m τ fun x ps =>
    P x ps ∧ ∀ l ∈ (τ x).labels, .label l ∉ ps.flatMap Segment.code := by
  intro a x b sound run
  obtain ⟨sound', ps, emitted, known⟩ := h a x b sound run
  refine ⟨sound', ps, emitted, known, fun l waits placed => ?_⟩
  have inside : .label l ∈ b.instructions := emitted ▸ List.mem_append_right _ placed
  obtain ⟨e, mem, same⟩ := List.mem_map.mp inside
  obtain ⟨i, found⟩ := List.getElem?_of_mem mem
  exact (sound'.watches watched).labels.waiting l waits i ⟨e, by simpa using found, same⟩

end Makes

/-- Code that is the instructions of the construct itself. -/
abbrev Puts (lowers : ι → Code) (G : Guard) (σ : Stage) (m : Asm α) (τ : α → Stage)
    (part : α → List Instruction) : Prop :=
  Makes G σ m τ fun x (ps : List (Segment lowers)) => ps = (part x).map .inl

section

variable {m : Asm α} {τ : α → Stage} {υ : β → Stage} {part : α → List Instruction}
  {Q : β → List (Segment lowers) → Prop}

theorem puts_of_run (h : Flows G σ m τ)
    (emits : ∀ a x b, m a = .ok (x, b) → b.instructions = a.instructions ++ part x) :
    Puts lowers G σ m τ part := by
  intro a x b sound run
  refine ⟨((h.ends a sound).post run).1, _, ?_, rfl⟩
  simp [emits a x b run, List.flatMap_map, Segment.code]

theorem Puts.bind {f : α → Asm β} (first : Puts lowers G σ m τ part)
    (next : ∀ x, Makes G (τ x) (f x) υ fun y qs => Q y ((part x).map .inl ++ qs)) :
    Makes G σ (m >>= f) υ Q :=
  Makes.bind first fun x _ same => same ▸ next x

theorem Puts.step {f : α → Lower β} (first : Puts lowers G σ m τ part)
    (next : ∀ x, Makes G (τ x) (f x env) υ fun y qs => Q y ((part x).map .inl ++ qs)) :
    Makes G σ ((liftM m >>= f) env) υ Q :=
  first.bind next

end

theorem puts_emit {i : Instruction} (h : Flows G σ (emit i) fun _ => ρ) :
    Puts lowers G σ (emit i) (fun _ => ρ) fun _ => [i] := by
  refine puts_of_run h ?_
  rintro a x b ⟨⟩
  simp [Assembler.instructions]

theorem puts_getTemp : Puts lowers G σ getTemp (fun r => σ.hold [r]) fun _ => [] := by
  refine puts_of_run flows_getTemp fun a x b run => ?_
  cases free : a.freeTemps with
  | nil =>
    cases (run_bind_of_ok (run_unusedRegister_nil free)).symm.trans run
    exact (List.append_nil _).symm
  | cons r rest =>
    cases (run_bind_of_ok (run_unusedRegister_cons free)).symm.trans run
    exact (List.append_nil _).symm

theorem puts_freshLabel : Puts lowers G σ freshLabel σ.expect fun _ => [] := by
  refine puts_of_run flows_freshLabel ?_
  rintro a x b ⟨⟩
  exact (List.append_nil _).symm

theorem instructions_of_freeTemps {given : List Register} {x : Unit}
    (run : freeTemps given a = .ok (x, b)) : b.instructions = a.instructions := by
  rw [freeTemps, Asm.run_bind_of_ok (x := a) rfl] at run
  split at run
  · cases run
  · cases run
    rfl

theorem puts_freeTemps {given : List Register} (h : Flows G σ (freeTemps given) fun _ => ρ) :
    Puts lowers G σ (freeTemps given) (fun _ => ρ) fun _ => [] :=
  puts_of_run h fun a x b run => by simp [instructions_of_freeTemps run]

theorem puts_storeTemp : Puts lowers G σ storeTemp (fun r => σ.hold [r]) fun r => [.sta r] :=
  puts_getTemp.bind fun r => (puts_emit (flows_sta (by simp))).bind fun _ =>
    .pure (υ := fun r => σ.hold [r]) (by simp)

theorem Sound.not_mem_of_hold {r : Register} (h : Sound G (σ.hold [r]) a) : r ∉ σ.temps :=
  fun mem => (List.nodup_cons.mp h.allocates.nodup).1 (List.mem_append_left _ mem)

/-- What was added to the code. -/
theorem Grows.instructions (h : Grows G a b) : b.instructions =
    a.instructions ++ (b.code.toList.drop a.code.size).map Emitted.instruction := by
  have front : a.code.toList = b.code.toList.take a.code.size := by
    refine List.ext_getElem? fun k => ?_
    rw [List.getElem?_take]
    split
    · rename_i inside
      have found := Array.getElem?_eq_getElem inside
      simpa [found] using (h.keeps k _ found).symm
    · simpa using Nat.not_lt.mp ‹_›
  rw [Assembler.instructions, Assembler.instructions, front, ← List.map_append,
    List.take_append_drop]

/-- A stage at which only registers are followed. -/
abbrev Assembler.stage (a : Assembler) (temps : List Register) : Stage where
  temps := temps
  boundaries := a.boundaries
  breakables := a.breakables
  continuables := a.continuables

theorem Assembler.Allocates.sound {temps : List Register} (h : a.Allocates temps) :
    Sound { watched := False } (a.stage temps) a :=
  ⟨rfl, rfl, rfl, (List.append_nil temps).symm ▸ h, False.elim⟩

variable (lowers) in
/-- The code of a part gives back what it takes and spares what is live around it. -/
theorem makes_inner {of : ι} (h : Neutral (lowers of)) : Makes G σ (lowers of) (fun _ => σ)
    fun _ ps => ∃ part : Inner lowers, part.of = of ∧ ps = [.inr part] ∧
      ∀ r ∈ σ.temps, r ∉ part.written := by
  intro a x b sound run
  have apart : Sound { G with kept := σ.temps ++ G.kept } { σ with temps := [] } a :=
    { sound with watches := fun watched => { sound.watches watched with } }
  obtain ⟨sound', grows⟩ := ((h _ _).ends a apart).post run
  refine ⟨{ sound' with watches := fun watched => { sound'.watches watched with } },
    [.inr ⟨of, _, a, b, run, grows.instructions⟩], ?_, _, rfl, rfl, fun r mem written => ?_⟩
  · simp [Segment.code, grows.instructions]
  · obtain ⟨_, placed, writes⟩ := List.mem_flatMap.mp written
    obtain ⟨e, added, rfl⟩ := List.mem_map.mp placed
    obtain ⟨k, found⟩ := List.getElem?_of_mem added
    rw [List.getElem?_drop, Array.getElem?_toList] at found
    exact grows.writes _ e (by omega) found r writes (List.mem_append_left _ mem)

/-- The code of a part that leads from one stage to another. -/
theorem makes_part {of : ι} (h : Flows G σ (lowers of) fun _ => ρ) :
    Makes G σ (lowers of) (fun _ => ρ) fun _ ps =>
      ∃ part : Inner lowers, part.of = of ∧ ps = [.inr part] := by
  intro a x b sound run
  obtain ⟨sound', grows⟩ := (h.ends a sound).post run
  refine ⟨sound', [.inr ⟨of, _, a, b, run, grows.instructions⟩], ?_, _, rfl, rfl⟩
  simp [Segment.code, grows.instructions]

theorem exists_of_isSome {x : Except Failure α} (h : x.toOption.isSome = true) :
    ∃ y, x = .ok y := by
  cases x with
  | error failure => simp [Except.toOption] at h
  | ok y => exact ⟨y, rfl⟩

def CompiledUnit.instructions (u : CompiledUnit) : List Instruction :=
  u.code.map Emitted.instruction

theorem isInfix_of_slice {part code : List Instruction} {start count : Nat}
    (same : (code.drop start).take count = part) : part <:+: code :=
  same ▸ (List.take_prefix _ _).isInfix.trans (List.drop_suffix _ _).isInfix

end AccScript
