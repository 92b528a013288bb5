import AccScript.Proofs.Assembly.Stage

/-!
# From stage to stage

`Flows` is the judgement for code that takes the assembler from one stage to another.  Code that
ends at the stage where it began is *neutral*: it has given back all it took.  The code of every
expression is neutral at every stage; so whatever is live around an expression may be in the list
of registers that it must not write.

No failure along the way blames the compiler's own bookkeeping.
-/

namespace AccScript

open Asm Lower

variable {α β : Type} {G : Guard} {σ : Stage} {env : Env} {i : Instruction} {f : α → Lower β}
  {τ : α → Stage} {m : Asm α} {a : Assembler} {r : Register} {failure : Failure} {x : α} {l : Label}
  (v : VariableId)

/-! ## Failures -/

/-- Failures that show a fault in the allocation of registers. -/
inductive Failure.BlamesRegisters : Failure → Prop
  | freed : BlamesRegisters (@Failure.broken .temporaries)
  | leaked (count : Nat) :
      BlamesRegisters (.internal (toString count ++ " temporary register(s) leaked"))
  | stillLive (count : Nat) (position : Position) : BlamesRegisters (stillLive count position)

/-- Failures that show a fault of the compiler's own bookkeeping. -/
inductive Failure.Blames : Failure → Prop
  | registers {failure : Failure} (h : failure.BlamesRegisters) : Blames failure
  /-- A boundary was left that is not the innermost one. -/
  | boundary : Blames (@Failure.broken .boundary)

namespace Failure

theorem head?_toString (n : Nat) (s : String) :
    ∃ c, (toString n ++ s).toList.head? = some c ∧ c.isDigit = true := by
  cases listed : Nat.toDigits 10 n with
  | nil => exact absurd listed Nat.toDigits_ne_nil
  | cons c rest =>
    refine ⟨c, by simp [listed], ?_⟩
    exact Nat.isDigit_of_mem_toDigits (by decide) (Nat.le_refl 10) (listed ▸ List.mem_cons_self)

theorem not_blames_internal
    {text : String} {c : Char} (head : text.toList.head? = some c) (other : c.isDigit = false) :
    ¬(internal text).Blames := by
  have apart : ∀ (n : Nat) (s : String), text ≠ toString n ++ s := by
    rintro n s rfl
    obtain ⟨d, first, digit⟩ := head?_toString n s
    rw [head, Option.some.injEq] at first
    rw [first, digit] at other
    cases other
  intro blames
  generalize same : internal text = failure at blames
  cases blames with
  | boundary => cases same
  | registers blames =>
    cases blames with
    | freed => cases same
    | leaked count => exact apart count _ (by simpa [internal] using same)
    | stillLive count position =>
      simp only [internal, Lower.stillLive, Failure.error.injEq, CompileError.internal.injEq,
        String.append_assoc] at same
      exact apart count _ same

theorem not_blames_unmet : ¬unmet.Blames := by
  intro blames
  generalize same : unmet = failure at blames
  cases blames with
  | boundary => cases same
  | registers blames => cases blames <;> cases same

theorem not_blames_unsupported (construct : String) (position : Position) :
    ¬(unsupported construct position).Blames := by
  intro blames
  generalize same : unsupported construct position = failure at blames
  cases blames with
  | boundary => cases same
  | registers blames => cases blames <;> cases same

end Failure

/-! ## Runs -/

theorem Asm.run_endBoundary {a : Assembler} {boundary : Boundary} {rest : List Boundary}
    (top : a.boundaries = boundary :: rest) :
    (endBoundary boundary).run a = .ok ((), { a with boundaries := rest }) := by
  simp [endBoundary, top]
  rfl

/-- A run ends well, or its failure does not blame the compiler. -/
def Ends {ω : Type} (m : StateT ω (Except Failure) α) (a : ω) (Q : α → ω → Prop) : Prop :=
  match m.run a with
  | .ok (x, b) => Q x b
  | .error failure => ¬failure.Blames

namespace Ends

variable {ω : Type} {m : StateT ω (Except Failure) α} {a : ω} {P Q : α → ω → Prop}
  {R : β → ω → Prop} {f : α → StateT ω (Except Failure) β}

theorem of_run {b : ω} (run : m.run a = .ok (x, b)) (post : Q x b) : Ends m a Q := by
  unfold Ends
  rw [run]
  exact post

theorem of_error (run : m.run a = .error failure) (other : ¬failure.Blames) : Ends m a Q := by
  unfold Ends
  rw [run]
  exact other

theorem post (h : Ends m a Q) {b : ω} (run : m.run a = .ok (x, b)) : Q x b := by
  unfold Ends at h
  rw [run] at h
  exact h

theorem not_blames (h : Ends m a Q) (run : m.run a = .error failure) : ¬failure.Blames := by
  unfold Ends at h
  rw [run] at h
  exact h

theorem imp (h : Ends m a P) (post : ∀ x b, m.run a = .ok (x, b) → P x b → Q x b) : Ends m a Q := by
  cases run : m.run a with
  | error failure => exact of_error run (h.not_blames run)
  | ok result => exact of_run run (post _ _ run (h.post run))

theorem bind (h : Ends m a P) (next : ∀ x b, P x b → Ends (f x) b R) : Ends (m >>= f) a R := by
  cases run : m.run a with
  | error failure =>
    refine of_error ?_ (h.not_blames run)
    rw [StateT.run_bind, run]
    rfl
  | ok result =>
    obtain ⟨x, b⟩ := result
    have rest := next x b (h.post run)
    unfold Ends at rest ⊢
    rw [StateT.run_bind, run]
    exact rest

theorem pure (post : Q x a) : Ends (Pure.pure x) a Q :=
  post

theorem get {f : ω → StateT ω (Except Failure) β} (h : Ends (f a) a R) :
    Ends (MonadState.get >>= f) a R :=
  h

theorem update {f : ω → ω} {m : Unit → StateT ω (Except Failure) β}
    (h : Ends (m ()) (f a) R) : Ends (modify f >>= m) a R :=
  h

theorem ask {x : Except Failure α} (failed : ∀ failure, x = .error failure → ¬failure.Blames)
    (next : ∀ y, x = .ok y → Ends (f y) a R) : Ends (liftM x >>= f) a R := by
  cases answer : x with
  | error failure => exact failed failure answer
  | ok y => exact next y answer

end Ends

/-! ## The judgement -/

/-- Code takes the assembler from one stage to another. -/
structure Flows (G : Guard) (σ : Stage) (m : Asm α) (τ : α → Stage) : Prop where
  ends : ∀ a, Sound G σ a → Ends m a fun x b => Sound G (τ x) b ∧ Grows G a b

/-- Code ends at the stage where it began, whichever that is. -/
def Neutral (m : Asm α) : Prop :=
  ∀ G σ, Flows G σ m fun _ => σ

namespace Flows

variable {υ : β → Stage}

theorem of_run
    {m : Asm β} (h : ∀ a, Sound G σ a → ∃ x b, m.run a = .ok (x, b) ∧ Sound G (υ x) b ∧ Grows G a b) :
    Flows G σ m υ := by
  refine ⟨fun a sound => ?_⟩
  obtain ⟨x, b, run, post⟩ := h a sound
  exact .of_run run post

theorem pure (x : β) : Flows G (υ x) (Pure.pure x) υ :=
  ⟨fun a sound => .pure ⟨sound, .refl a⟩⟩

theorem bind {f : α → Asm β} (first : Flows G σ m τ)
    (next : ∀ x, Flows G (τ x) (f x) υ) : Flows G σ (m >>= f) υ :=
  ⟨fun a sound => (first.ends a sound).bind fun x b post =>
    ((next x).ends b post.1).imp fun _ _ _ rest => ⟨rest.1, post.2.trans rest.2⟩⟩

theorem step (first : Flows G σ m τ)
    (next : ∀ x, Flows G (τ x) (f x env) υ) : Flows G σ ((liftM m >>= f) env) υ :=
  first.bind next

theorem follow {m : Lower α} (first : Flows G σ (m env) τ)
    (next : ∀ x, Flows G (τ x) (f x env) υ) : Flows G σ ((m >>= f) env) υ :=
  first.bind next

section

variable {ρ : Stage} {n : Lower β}

theorem seq {n : Asm β} (first : Flows G σ m fun _ => ρ) (next : Flows G ρ n υ) :
    Flows G σ (m >>= fun _ => n) υ :=
  first.bind fun _ => next

theorem before (first : Flows G σ m fun _ => ρ) (next : Flows G ρ (n env) υ) :
    Flows G σ ((liftM m >>= fun _ => n) env) υ :=
  first.step fun _ => next

end

theorem throw (h : ¬failure.Blames) : Flows G σ (MonadExcept.throw failure : Asm β) υ :=
  ⟨fun _ _ => h⟩

theorem get {f : Assembler → Asm β} (h : ∀ a, Sound G σ a → Flows G σ (f a) υ) :
    Flows G σ (MonadState.get >>= f) υ :=
  ⟨fun a sound => (h a sound).ends a sound⟩

theorem inspect {f : Assembler → Lower β} (h : ∀ a, Sound G σ a → Flows G σ (f a env) υ) :
    Flows G σ ((MonadState.get >>= f) env) υ :=
  ⟨fun a sound => (h a sound).ends a sound⟩

theorem read {f : Env → Lower β} (h : Flows G σ (f env env) υ) :
    Flows G σ ((MonadReader.read >>= f) env) υ :=
  h

theorem withScope {scope : ScopeId} {m : Lower β} (h : Flows G σ (m { env with scope }) υ) :
    Flows G σ (Lower.withScope scope m env) υ :=
  h

theorem close {code : Lower Unit} {f : Code → Lower β} (h : Flows G σ (f (code env) env) υ) :
    Flows G σ ((Lower.close code >>= f) env) υ :=
  h

theorem ite {p : Prop} [Decidable p] {m m' : Asm β} (h : p → Flows G σ m υ)
    (h' : ¬p → Flows G σ m' υ) : Flows G σ (if p then m else m') υ := by
  split
  · exact h ‹p›
  · exact h' ‹¬p›

theorem choose {p : Prop} [Decidable p] {m m' : Lower β} (h : p → Flows G σ (m env) υ)
    (h' : ¬p → Flows G σ (m' env) υ) : Flows G σ ((if p then m else m') env) υ := by
  split
  · exact h ‹p›
  · exact h' ‹¬p›

theorem weaken {m : Asm β} {υ' : β → Stage} (h : Flows G σ m υ)
    (after : ∀ x b, Sound G (υ x) b → Sound G (υ' x) b) : Flows G σ m υ' :=
  ⟨fun a sound => (h.ends a sound).imp fun x b _ post => ⟨after x b post.1, post.2⟩⟩

/-- What is true of every sound state may be used. -/
theorem given {m : Asm β} {P : Prop} (fact : ∀ a, Sound G σ a → P) (h : P → Flows G σ m υ) :
    Flows G σ m υ :=
  ⟨fun a sound => (h (fact a sound)).ends a sound⟩

/-- What is known about a result may be used after it. -/
theorem step_of {P : α → Prop} (first : Flows G σ m τ) (fact : ∀ x a b, m.run a = .ok (x, b) → P x)
    (next : ∀ x, P x → Flows G (τ x) (f x env) υ) : Flows G σ ((liftM m >>= f) env) υ := by
  refine ⟨fun a sound => Ends.bind (f := fun x => f x env) ((first.ends a sound).imp fun x b run post =>
    And.intro post (fact x a b run)) fun x b post => ?_⟩
  exact ((next x post.2).ends b post.1.1).imp fun _ _ _ rest => ⟨rest.1, post.1.2.trans rest.2⟩

end Flows

theorem Flows.then {υ : β → Stage} {ρ : Stage} {m : Lower α} {n : Lower β}
    (first : Flows G σ (m env) fun _ => ρ) (next : Flows G ρ (n env) υ) :
    Flows G σ ((m >>= fun _ => n) env) υ :=
  first.follow fun _ => next

namespace Neutral

variable {υ : β → Stage}

theorem bind {f : α → Asm β} (h : Neutral m) (next : ∀ x, Flows G σ (f x) υ) :
    Flows G σ (m >>= f) υ :=
  (h G σ).bind next

theorem step (h : Neutral m) (next : ∀ x, Flows G σ (f x env) υ) :
    Flows G σ ((liftM m >>= f) env) υ :=
  (h G σ).bind next

theorem follow {m : Lower α} (h : Neutral (m env))
    (next : ∀ x, Flows G σ (f x env) υ) : Flows G σ ((m >>= f) env) υ :=
  (h G σ).bind next

theorem seq {n : Asm β} (h : Neutral m) (next : Flows G σ n υ) : Flows G σ (m >>= fun _ => n) υ :=
  h.bind fun _ => next

theorem before {n : Lower β} (h : Neutral m) (next : Flows G σ (n env) υ) :
    Flows G σ ((liftM m >>= fun _ => n) env) υ :=
  h.step fun _ => next

theorem pure (x : α) : Neutral (Pure.pure x) :=
  fun _ σ => Flows.pure (υ := fun _ => σ) x

theorem sequence {codes : List (Lower Unit)} (h : ∀ code ∈ codes, Neutral (code env)) :
    Neutral (Lower.sequence codes env) := by
  induction codes with
  | nil => exact pure ()
  | cons code rest ih =>
    have others := ih fun code mem => h code (.tail _ mem)
    exact fun G σ => (h code (.head _)).follow fun _ => others G σ

end Neutral

theorem Neutral.then {υ : β → Stage} {m : Lower α} {n : Lower β} (h : Neutral (m env))
    (next : Flows G σ (n env) υ) : Flows G σ ((m >>= fun _ => n) env) υ :=
  h.follow fun _ => next

/-! ## Stages -/

namespace Stage

@[simps temps labels placed]
def hold (σ : Stage) (temps : List Register) : Stage :=
  { σ with temps := temps ++ σ.temps }

/-- Without the last temporaries. -/
@[simps temps labels placed]
def release (σ : Stage) (count : Nat) : Stage :=
  { σ with temps := σ.temps.drop count }

@[simps temps labels placed]
def expect (σ : Stage) (l : Label) : Stage :=
  { σ with labels := l :: σ.labels }

@[simps temps labels placed]
def place (σ : Stage) (index : Nat) : Stage :=
  { σ with labels := σ.labels.eraseIdx index }

@[simps temps labels placed]
def know (σ : Stage) (l : Label) : Stage :=
  { σ with placed := l :: σ.placed }

/-- After a label has been placed that later code jumps to. -/
def mark (σ : Stage) (index : Nat) (l : Label) : Stage :=
  (σ.place index).know l

variable (σ : Stage) (l : Label) (n : Nat)

theorem hold_hold (xs ys : List Register) : (σ.hold xs).hold ys = σ.hold (ys ++ xs) := by
  simp [hold, List.append_assoc]

@[simp] theorem temps_mark : (σ.mark n l).temps = σ.temps := rfl
@[simp] theorem labels_mark : (σ.mark n l).labels = σ.labels.eraseIdx n := rfl
@[simp] theorem placed_mark : (σ.mark n l).placed = l :: σ.placed := rfl

end Stage

/-! ## Emission -/

theorem Instruction.written_subset (i : Instruction) : i.written ⊆ i.registers := by
  cases i <;> simp [written, registers, operands, Operand.register?]

/-- An instruction can be emitted at a stage: it has the registers and labels it names. -/
structure Instruction.Usable (i : Instruction) (σ : Stage) : Prop where
  plain : i.isLabel = false
  registers : ∀ r ∈ i.registers, r ∈ σ.temps
  target : ∀ l, i.target? = some l → σ.Knows l

theorem Sound.not_kept (h : Sound G σ a) (mem : r ∈ σ.temps) : r ∉ G.kept :=
  fun kept => (List.nodup_append.mp h.allocates.nodup).2.2 r mem r kept rfl

/-- Whether an instruction leaves what is around it. -/
def Subject.leaves : Subject → Bool
  | .jump _ _ _ => true
  | .result _ => true
  | _ => false

theorem Emitted.Arrives.of_staying
    {e : Emitted} {code : Array Emitted} {copies : Array FinalizerCopy} {k : Nat}
    (h : ∀ site, e.site = some site → site.subject.leaves = false) : e.Arrives code copies k := by
  refine ⟨fun site word name start sited subject => ?_, fun site start sited subject => ?_⟩
  all_goals
    have other := h site sited
    rw [subject] at other
    cases other

theorem flows_push (usable : i.Usable σ) (site : Assembler → Option Site)
    (other : ∀ a s, site a = some s → s.subject.leaves = false) :
    Flows G σ (modify fun a =>
      { a with code := a.code.push ⟨i, a.origin, a.placement (site a)⟩ }) fun _ => σ := by
  refine .of_run fun a sound => ⟨(), _, rfl, sound.push usable.plain sound.boundaries ?_ ?_ ?_,
    .push ?_ ?_ rfl rfl⟩
  · exact fun _ r mem => sound.allocates.lt_next (List.mem_append_left _ (usable.registers r mem))
  · exact fun _ => usable.target
  · exact fun _ => Emitted.Arrives.of_staying fun s sited => other a s sited
  · exact fun r mem => sound.not_kept (usable.registers r (i.written_subset mem))
  · intro watched j shut mem
    have around : a.boundaries = σ.boundaries := sound.boundaries
    exact ((sound.watches watched).shut j shut).2 (around ▸ mem)

theorem flows_emit (usable : i.Usable σ) : Flows G σ (emit i) fun _ => σ :=
  flows_push usable (fun _ => none) (by simp)

theorem flows_emitAt (usable : i.Usable σ) {subject : Subject} (other : subject.leaves = false) :
    Flows G σ (emitAt subject i env) fun _ => σ := by
  refine flows_push usable (fun a => some (env.site subject a.boundaries)) ?_
  rintro a s ⟨⟩
  exact other

theorem flows_use (rs : List Register) (mem : ∀ r ∈ rs, r ∈ σ.temps)
    (registers : i.registers = rs) (plain : i.isLabel = false) (target : i.target? = none) :
    Flows G σ (emit i) fun _ => σ :=
  flows_emit ⟨plain, registers ▸ mem, by simp [target]⟩

theorem flows_jump (l : Label) (knows : σ.Knows l) (target : i.target? = some l)
    (registers : i.registers = []) (plain : i.isLabel = false) :
    Flows G σ (emit i) fun _ => σ := by
  refine flows_emit ⟨plain, by simp [registers], fun l' same => ?_⟩
  rw [target, Option.some.injEq] at same
  exact same ▸ knows

/-- Whether an instruction names neither registers nor labels. -/
def Instruction.isInert (i : Instruction) : Bool :=
  !i.isLabel && i.registers.isEmpty && i.target?.isNone

theorem Instruction.usable_of_isInert (h : i.isInert = true) : i.Usable σ := by
  simp only [isInert, Bool.and_eq_true, Bool.not_eq_true', List.isEmpty_iff,
    Option.isNone_iff_eq_none] at h
  exact ⟨h.1.1, by simp [h.1.2], by simp [h.2]⟩

theorem neutral_emit (h : i.isInert = true) : Neutral (emit i) :=
  fun _ _ => flows_emit (i.usable_of_isInert h)

theorem neutral_emitAt (h : i.isInert = true) {subject : Subject}
    (other : subject.leaves = false) : Neutral (emitAt subject i env) :=
  fun _ _ => flows_emitAt (i.usable_of_isInert h) other

/-! ## Labels -/

theorem flows_freshLabel : Flows G σ freshLabel σ.expect :=
  .of_run fun _ sound => ⟨_, _, rfl, sound.fresh, .of_same rfl⟩

theorem flows_skipLabel : Flows G σ freshLabel fun _ => σ :=
  .of_run fun _ sound => ⟨_, _, rfl, sound.skipLabel, .of_same rfl⟩

theorem perm_of_getElem? {items : List α} {n : Nat} (h : items[n]? = some x) :
    items.Perm (x :: items.eraseIdx n) := by
  obtain ⟨inside, rfl⟩ := List.getElem?_eq_some_iff.mp h
  exact (List.getElem_cons_eraseIdx_perm inside).symm

theorem Grows.label {a b : Assembler} {opened : List Nat} (sound : SoundAt G σ opened a)
    (code : b.code = a.code.push ⟨.label l, a.origin, a.placement none⟩)
    (same : { b with code := a.code }.traces = a.traces) : Grows G a b := by
  refine .push (by simp [Instruction.written]) (fun watched j shut mem => ?_) code same
  have around : a.boundaries = σ.boundaries := sound.boundaries
  exact ((sound.watches watched).shut j shut).2 (around ▸ mem)

theorem flows_label (index : Nat) (h : σ.labels[index]? = some l) :
    Flows G σ (label l) fun _ => σ.place index :=
  .of_run fun a sound => ⟨(), _, rfl,
    sound.place (e := ⟨.label l, a.origin, a.placement none⟩) rfl sound.boundaries rfl
      (perm_of_getElem? h) fun _ => .inr,
    .label sound rfl rfl⟩

theorem flows_mark (index : Nat) (h : σ.labels[index]? = some l) :
    Flows G σ (label l) fun _ => σ.mark index l :=
  .of_run fun a sound => ⟨(), _, rfl,
    sound.place (e := ⟨.label l, a.origin, a.placement none⟩) rfl sound.boundaries rfl
      (perm_of_getElem? h) fun _ => List.mem_cons.mp,
    .label sound rfl rfl⟩

theorem Flows.forget (l : Label) (h : Flows G σ m fun x => (τ x).know l) : Flows G σ m τ :=
  h.weaken fun _ _ sound => sound.forget (List.subset_cons_self _ _) (List.Subset.refl _)

/-! ## Temporaries -/

theorem run_unusedRegister_cons {rest : List Register} (free : a.freeTemps = r :: rest) :
    unusedRegister.run a = .ok (r, { a with freeTemps := rest }) := by
  rw [unusedRegister, StateT.run_bind, StateT.run_get, pure_bind]
  split
  · rename_i same
    cases free.symm.trans same
    rfl
  · rename_i same
    cases free.symm.trans same

theorem run_unusedRegister_nil (free : a.freeTemps = []) : unusedRegister.run a =
      .ok (⟨a.nextRegister⟩, { a with nextRegister := a.nextRegister + 1 }) := by
  rw [unusedRegister, StateT.run_bind, StateT.run_get, pure_bind]
  split
  · rename_i same
    cases free.symm.trans same
  · rfl

theorem flows_getTemp : Flows G σ getTemp fun r => σ.hold [r] := by
  refine .of_run fun a sound => ?_
  rw [getTemp, StateT.run_bind]
  cases free : a.freeTemps with
  | nil =>
    have allocates := sound.allocates.hold_next.record
    rw [run_unusedRegister_nil free]
    refine ⟨_, _, rfl, ?_, .of_same rfl⟩
    exact sound.reallocate allocates (Nat.le_succ _) rfl
  | cons r rest =>
    have allocates := (sound.allocates.hold_free free).record
    rw [run_unusedRegister_cons free]
    refine ⟨_, _, rfl, ?_, .of_same rfl⟩
    exact sound.reallocate allocates (Nat.le_refl _) rfl

theorem flows_free {given : List Register} (rest : List Register) (same : σ.temps.Perm (given ++ rest)) :
    Flows G σ (freeTemps given) fun _ => { σ with temps := rest } := by
  refine .of_run fun a sound => ?_
  have split : (σ.temps ++ G.kept).Perm (given ++ (rest ++ G.kept)) := by
    rw [← List.append_assoc]
    exact same.append_right _
  obtain ⟨enough, allocates⟩ := sound.allocates.release split
  rw [freeTemps, StateT.run_bind, StateT.run_get, pure_bind, if_neg (Nat.not_lt.mpr enough)]
  refine ⟨(), _, rfl, ?_, .of_same rfl⟩
  exact sound.reallocate allocates.record (Nat.le_refl _) rfl

theorem flows_freeTemps {given : List Register} (count : Nat)
    (same : (σ.temps.take count).Perm given) :
    Flows G σ (freeTemps given) fun _ => σ.release count := by
  refine flows_free _ ?_
  conv_lhs => rw [← List.take_append_drop count σ.temps]
  exact same.append_right _

theorem flows_freeHeld {given temps : List Register} (same : temps.Perm given) :
    Flows G (σ.hold temps) (freeTemps given) fun _ => σ :=
  flows_free σ.temps (same.append_right σ.temps)

theorem flows_lda (mem : r ∈ σ.temps) : Flows G σ (lda r) fun _ => σ :=
  flows_use [r] (by simpa using mem) rfl rfl rfl

theorem flows_sta (mem : r ∈ σ.temps) : Flows G σ (sta r) fun _ => σ :=
  flows_use [r] (by simpa using mem) rfl rfl rfl

theorem flows_storeTemp : Flows G σ storeTemp fun r => σ.hold [r] :=
  flows_getTemp.bind fun r => (flows_sta (by simp)).seq <| .pure (υ := fun r => σ.hold [r]) r

/-! ## Registers of variables -/

theorem registerFor_outcome (sound : Sound G σ a) :
    ∃ r b, (registerFor v).run a = .ok (r, b) ∧ Sound G σ b ∧ Grows G a b ∧
      b.locals.get? v = some r := by
  rw [registerFor, StateT.run_bind, StateT.run_get, pure_bind]
  split
  · rename_i r found
    exact ⟨r, a, rfl, sound, .refl a, found⟩
  · have allocates := (sound.allocates.bindNext v).record
    refine ⟨_, _, rfl, ?_, .of_same rfl, ?_⟩
    · exact sound.reallocate allocates (Nat.le_succ _) rfl
    · rw [OrderedMap.get?_insert, if_pos rfl]

theorem neutral_registerFor
    {i : Register → Instruction} (plain : ∀ r, (i r).isLabel = false)
    (registers : ∀ r, (i r).registers = [r]) (target : ∀ r, (i r).target? = none) :
    Neutral (registerFor v >>= fun r => emit (i r)) := by
  refine fun G σ => .of_run fun a sound => ?_
  obtain ⟨r, b, run, sound', grows, bound⟩ := registerFor_outcome v sound
  have kept : r ∉ G.kept := fun mem =>
    sound'.allocates.local_not_mem bound (List.mem_append_right _ mem)
  refine ⟨(), { b with code := b.code.push ⟨i r, b.origin, b.placement none⟩ }, ?_, ?_, ?_⟩
  · rw [StateT.run_bind, run]
    rfl
  · refine sound'.push (plain r) sound'.boundaries (fun _ r' mem => ?_) (fun _ l jumps => ?_)
      fun _ => Emitted.Arrives.of_staying nofun
    · obtain rfl : r' = r := by simpa [registers r] using mem
      exact sound'.allocates.local_lt_next bound
    · simp [target r] at jumps
  · refine grows.trans (.push (fun r' mem => ?_) (fun watched j shut mem => ?_) rfl rfl)
    · obtain rfl : r' = r := by simpa [registers r] using (i r).written_subset mem
      exact kept
    · have around : b.boundaries = σ.boundaries := sound'.boundaries
      exact ((sound'.watches watched).shut j shut).2 (around ▸ mem)

theorem neutral_loadRegister : Neutral (registerFor v >>= lda) :=
  neutral_registerFor v (fun _ => rfl) (fun _ => rfl) fun _ => rfl

theorem neutral_storeRegister : Neutral (registerFor v >>= sta) :=
  neutral_registerFor v (fun _ => rfl) (fun _ => rfl) fun _ => rfl

theorem neutral_bindParameter : Neutral (bindParameter v) := by
  refine fun G σ => .of_run fun a sound => ⟨_, _, rfl, ?_, .of_same rfl⟩
  have allocates : Assembler.Allocates _ (σ.temps ++ G.kept) :=
    ((sound.allocates.bindNext v).congr (b := { a with
      nextRegister := a.nextRegister + 1
      locals := a.locals.insert v ⟨a.nextRegister⟩
      initialized := insertNew a.initialized v }) rfl rfl rfl).record
  exact sound.reallocate allocates (Nat.le_succ _) rfl

/-! ## Steps that stages do not notice -/

theorem neutral_modify {f : Assembler → Assembler} (h : ∀ a, (f a).core = a.core)
    (visible : ∀ a, (f a).visible = a.visible) : Neutral (modify f : Code) := by
  refine fun G σ => .of_run fun a sound => ⟨(), f a, rfl, sound.congr (h a), ?_⟩
  have same := h a
  simp only [Assembler.core, Core.mk.injEq] at same
  exact .of_same (by simp [Assembler.traces, same, visible a])

theorem neutral_setOrigin (origin : Origin) : Neutral (setOrigin origin) :=
  neutral_modify (fun _ => rfl) fun _ => rfl

theorem neutral_atPosition (position : Position) : Neutral (atPosition position) :=
  neutral_setOrigin _

theorem neutral_markInitialized : Neutral (markInitialized v) :=
  neutral_modify (fun _ => rfl) fun _ => rfl

theorem neutral_defer (unit : UnitSource) : Neutral (defer unit) :=
  neutral_modify (fun _ => rfl) fun _ => rfl

theorem Grows.around_core
    {a a' b b' : Assembler} (h : Grows G a' b) (before : a'.core = a.core) (after : b'.core = b.core)
    (visible : b'.visible = a.visible) : Grows G a b' := by
  simp only [Assembler.core, Core.mk.injEq] at before after
  exact
    { keeps := after.1 ▸ before.1 ▸ h.keeps
      copies := after.2.2.1 ▸ before.2.2.1 ▸ h.copies
      visits := after.2.2.2.1 ▸ before.2.2.2.1 ▸ h.visits
      visible
      around := after.2.1 ▸ before.2.1 ▸ h.around
      writes := after.1 ▸ before.1 ▸ h.writes
      shut := after.1 ▸ before.1 ▸ h.shut }

theorem enterScope_outcome (scope : ScopeId) (a : Assembler) :
    ∃ b, (enterScope scope).run a = .ok ((), b) ∧ b.core = a.core ∧
      b.visible = (a.debugMode, if a.debugMode then (scope, a.code.size) :: a.openScopes
        else a.openScopes) := by
  refine ⟨_, rfl, ?_⟩
  cases mode : a.debugMode
  · simp only [mode, Bool.false_eq_true, if_false]
    exact ⟨trivial, by rw [Assembler.visible, mode]⟩
  · simp only [mode, if_true]
    exact ⟨rfl, rfl⟩

theorem exitScope_outcome
    {b : Assembler} {mode : Bool} {entry : ScopeId × Nat} {rest : List (ScopeId × Nat)}
    (visible : b.visible = (mode, if mode then entry :: rest else rest)) :
    ∃ c, exitScope.run b = .ok ((), c) ∧ c.core = b.core ∧ c.visible = (mode, rest) := by
  refine ⟨_, rfl, ?_⟩
  cases mode
  · obtain ⟨mode, -⟩ : b.debugMode = false ∧ _ := by simpa [Assembler.visible] using visible
    simp only [mode, Bool.false_eq_true, if_false]
    exact ⟨trivial, by simpa using visible⟩
  · obtain ⟨mode, scopes⟩ : b.debugMode = true ∧ b.openScopes = entry :: rest := by
      simpa [Assembler.visible] using visible
    simp only [mode, if_true, scopes]
    exact ⟨rfl, rfl⟩

theorem Flows.visibly {m : Code} {τ : Stage} (h : Flows G σ m fun _ => τ) (scope : ScopeId) :
    Flows G σ (do
      enterScope scope
      m
      exitScope) fun _ => τ := by
  refine ⟨fun a sound => ?_⟩
  obtain ⟨a', entered, core, visible⟩ := enterScope_outcome scope a
  have step : Ends (enterScope scope) a fun _ b => b = a' := .of_run entered rfl
  refine step.bind fun _ b same => ?_
  subst same
  refine (h.ends b (sound.congr core)).bind fun _ c post => ?_
  obtain ⟨d, left, core', visible'⟩ := exitScope_outcome (post.2.visible.trans visible)
  exact .of_run left ⟨post.1.congr core', post.2.around_core core core' visible'⟩

theorem neutral_intern (s : String) : Neutral (intern s) :=
  fun _ _ => .of_run fun _ sound => ⟨_, _, rfl, sound.congr rfl, .of_same rfl⟩

theorem neutral_addLiteral (buffer : LiteralBuffer) : Neutral (addLiteral buffer) :=
  fun _ _ => .of_run fun _ sound => ⟨_, _, rfl, sound.congr rfl, .of_same rfl⟩

theorem neutral_isTerminated : Neutral isTerminated :=
  fun _ σ => .get fun a _ => .pure (υ := fun _ => σ) a.isTerminated

end AccScript
