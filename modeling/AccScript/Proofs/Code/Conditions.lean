import AccScript.Proofs.Code.Allocation
import AccScript.Proofs.Code.Segments

/-!
# Branches on conditions

A condition is lowered without making a value of it.  `branches_alike` compares this with the code
that computes the value and jumps on it: on a machine that is told what the leaves evaluate to, both
evaluate the same leaves in the same order and jump in the same cases, as the language says.
-/

namespace AccScript

open Asm Lower

variable {V : Type} {G : Guard} {σ : Stage} {env : Env} {e lhs rhs : Expr}

/-! ## The language -/

/-- What happens while a condition is evaluated. -/
inductive TestEvent (V : Type) where
  | leaf (e : Expr)
  | compared (op : BinaryOp) (lhs rhs : V)

/-- The values of leaves and the results of comparisons, by the number of events before, and what
else the code of leaves leaves in registers. -/
structure TestCourse (V : Type) where
  bool : Bool → V
  truth : V → Bool
  truth_bool : ∀ b, truth (bool b) = b
  value : Nat → V
  holds : Nat → Bool
  leaves : Nat → Register → V

/-- The value of a condition, with the events up to it. -/
@[simp]
def Expr.evaluate (c : TestCourse V) : Expr → List (TestEvent V) → V × List (TestEvent V)
  | ⟨_, .logical .and lhs rhs⟩, es =>
      if c.truth (lhs.evaluate c es).1 then rhs.evaluate c (lhs.evaluate c es).2
      else lhs.evaluate c es
  | ⟨_, .logical .or lhs rhs⟩, es =>
      if c.truth (lhs.evaluate c es).1 then lhs.evaluate c es
      else rhs.evaluate c (lhs.evaluate c es).2
  | ⟨_, .unary .not operand⟩, es =>
      (c.bool !c.truth (operand.evaluate c es).1, (operand.evaluate c es).2)
  | ⟨position, .binary op lhs rhs⟩, es =>
      if op.yieldsBoolean then
        let left := lhs.evaluate c es
        let right := rhs.evaluate c left.2
        (c.bool (c.holds right.2.length), right.2 ++ [.compared op left.1 right.1])
      else (c.value es.length, es ++ [.leaf ⟨position, .binary op lhs rhs⟩])
  | e, es => (c.value es.length, es ++ [.leaf e])
termination_by structural e => e

/-! ## The machine -/

/-- The code of leaves. -/
abbrev lowered (env : Env) (e : Expr) : Code :=
  e.lower env

/-- A machine that runs code forward; `goal` is the label that it looks for after a jump. -/
structure TestMachine (V : Type) where
  accumulator : V
  registers : Register → V
  events : List (TestEvent V)
  goal : Option Label

namespace TestCourse

@[simp]
def step (c : TestCourse V) (s : TestMachine V) : Segment (lowered env) → Option (TestMachine V)
  | p =>
    match s.goal, p with
    | some l, .inl (.label l') => some (if l' = l then { s with goal := none } else s)
    | some _, _ => some s
    | none, .inr part => some { s with
        accumulator := c.value s.events.length
        registers := fun r => if r ∈ part.written then c.leaves s.events.length r else s.registers r
        events := s.events ++ [.leaf part.of] }
    | none, .inl i =>
      match i with
      | .label _ => some s
      | .lda r => some { s with accumulator := s.registers r }
      | .sta r => some { s with
          registers := fun q => if q = r then s.accumulator else s.registers q }
      | .ldConst .true => some { s with accumulator := c.bool true }
      | .ldConst .false => some { s with accumulator := c.bool false }
      | .unary .isTrue => some { s with accumulator := c.bool (c.truth s.accumulator) }
      | .unary .isFalse => some { s with accumulator := c.bool !c.truth s.accumulator }
      | .binary op r => some { s with
          accumulator := c.bool (c.holds s.events.length)
          events := s.events ++ [.compared op (s.registers r) s.accumulator] }
      | .jmp l => some { s with goal := some l }
      | .jeqz l => some (if c.truth s.accumulator then s else { s with goal := some l })
      | _ => none

def run (c : TestCourse V) (s : TestMachine V) (segments : List (Segment (lowered env))) :
    Option (TestMachine V) :=
  segments.foldlM c.step s

variable (c : TestCourse V) (s : TestMachine V) (ps qs : List (Segment (lowered env)))

@[simp]
theorem run_nil : c.run s ([] : List (Segment (lowered env))) = some s :=
  rfl

@[simp]
theorem run_cons (p : Segment (lowered env)) : c.run s (p :: ps) = (c.step s p).bind (c.run · ps) :=
  rfl

variable {c s ps} in
theorem run_append {t : TestMachine V} (h : c.run s ps = some t) :
    c.run s (ps ++ qs) = c.run t qs := by
  rw [run, List.foldlM_append, ← run, h]
  rfl

end TestCourse

open TestCourse

/-- Segments that run to their end or to a jump out of them, keep what is live around them, and hold
none of the labels that wait for their place. -/
structure Conducts (σ : Stage) (segments : List (Segment (lowered env)))
    (post : ∀ {V : Type}, TestCourse V → TestMachine V → TestMachine V → Prop) : Prop where
  runs : ∀ {V : Type} (c : TestCourse V) (s : TestMachine V), s.goal = none →
    ∃ t, c.run s segments = some t ∧ post c s t ∧ ∀ r ∈ σ.temps, t.registers r = s.registers r
  skips : ∀ {V : Type} (c : TestCourse V) (s : TestMachine V) (l : Label), l ∈ σ.labels →
    s.goal = some l → c.run s segments = some s

/-- Segments leave the value of an expression. -/
abbrev Evaluates (env : Env) (σ : Stage) (e : Expr) (segments : List (Segment (lowered env))) :
    Prop :=
  Conducts σ segments fun c s t => t.goal = none ∧ (t.accumulator, t.events) = e.evaluate c s.events

/-- Segments jump to a label if the value of an expression is false. -/
abbrev Tests (env : Env) (l : Label) (σ : Stage) (e : Expr)
    (segments : List (Segment (lowered env))) : Prop :=
  Conducts σ segments fun c s t => t.events = (e.evaluate c s.events).2 ∧
    t.goal = if c.truth (e.evaluate c s.events).1 then none else some l

/-! ## Values -/

theorem puts_jump {i : Instruction} {l : Label} (first : Flows G σ (emit i) fun _ => σ)
    (known : σ.Knows l) : Puts (lowered env) G σ (emit i >>= fun _ => emit (.jeqz l)) (fun _ => σ)
      fun _ => [i, .jeqz l] :=
  (puts_emit first).bind fun _ => (puts_emit (flows_jump l known rfl rfl rfl)).imp (by simp)

/-- The code of an expression evaluates it. -/
def Computes (env : Env) (G : Guard) (e : Expr) : Prop :=
  ∀ σ, Makes G σ (e.lower env) (fun _ => σ) fun _ => Evaluates env σ e

theorem computes_leaf (fields : Neutral env.fieldInit)
    (leaf : ∀ {V : Type} (c : TestCourse V) es,
      e.evaluate c es = (c.value es.length, es ++ [.leaf e])) :
    Computes env G e := by
  refine fun σ => (makes_inner (lowered env) (e.lower_neutral fields)).imp fun _ ps known => ?_
  obtain ⟨part, rfl, rfl, spares⟩ := known
  refine ⟨fun c s here => ?_, fun c s l mem seeks => by simp [seeks]⟩
  simp +contextual [here, leaf, spares]

/-- The operators `&&` and `||`, by the truth of the left operand that asks for the right one. -/
theorem makes_shortCircuit (watched : G.watched) (left : Computes env G lhs)
    (right : Computes env G rhs) (both : Bool) (keepLeft done : Label)
    (short : ∀ {V : Type} (c : TestCourse V) es, e.evaluate c es =
      if c.truth (lhs.evaluate c es).1 = both then rhs.evaluate c (lhs.evaluate c es).2
      else lhs.evaluate c es) : Makes G ((σ.expect keepLeft).expect done) (shortCircuit (fun l => do
        unary (if both then .isTrue else .isFalse)
        emit (.jeqz l)) lhs.lower rhs.lower keepLeft done env)
      (fun _ => σ) fun _ => Evaluates env σ e := by
  refine .given (fun a sound => (sound.watches watched).labels.nodup) fun nodup =>
    (left _).follow fun _ ps first => puts_storeTemp.step fun value =>
    .given (fun a => Sound.not_mem_of_hold) fun apart =>
    (puts_jump (neutral_unary _ _ _) (by simp [Stage.Knows])).step fun _ =>
    (right _).follow fun _ qs second =>
    (puts_emit (flows_branch (by simp [Stage.Knows]))).step fun _ =>
    (puts_emit (flows_label 1 rfl)).step fun _ => (puts_emit (flows_lda (by simp))).step fun _ =>
    (puts_emit (flows_label 0 rfl)).step fun _ =>
    (puts_freeTemps (flows_freeTemps 1 (.refl _))).imp fun _ _ ended => ?_
  simp at nodup
  subst ended
  refine ⟨fun c s here => ?_, fun c s l mem seeks => ?_⟩
  · obtain ⟨t, ran, ⟨here', evaluated⟩, kept⟩ := first.runs c s here
    let t' := { t with
      accumulator := c.bool (c.truth t.accumulator == both)
      registers := fun q => if q = value then t.accumulator else t.registers q }
    have tested : c.run t ([.inl (.sta value), .inl (.unary (if both then .isTrue else .isFalse)),
        .inl (.jeqz keepLeft)] : List (Segment (lowered env))) =
        some (if c.truth t.accumulator = both then t' else { t' with goal := some keepLeft }) := by
      cases both <;> cases decided : c.truth t.accumulator <;>
        simp [here', c.truth_bool, decided, t']
    have spared r (mem : r ∈ σ.temps) : t'.registers r = s.registers r := by
      have other : r ≠ value := fun same => apart (same ▸ mem)
      simpa [t', other] using kept r mem
    rw [short, ← evaluated]
    by_cases decides : c.truth t.accumulator = both
    · obtain ⟨u, ran', ⟨here'', evaluated'⟩, kept'⟩ := second.runs c t' here'
      refine ⟨u, ?_, ⟨here'', ?_⟩, fun r mem => ?_⟩
      · rw [if_pos decides] at tested
        refine (run_append _ ran).trans <| (run_append _ tested).trans <|
          (run_append _ ran').trans ?_
        simp [here'', Ne.symm nodup.1.1]
        rw [← here'']
      · simpa [decides] using evaluated'
      · exact (kept' r (by simp [mem])).trans (spared r mem)
    · have skipped := second.skips c { t' with goal := some keepLeft } keepLeft (by simp) rfl
      refine ⟨{ t' with accumulator := t.accumulator }, ?_, ⟨here', by simp [decides, t']⟩, spared⟩
      rw [if_neg decides] at tested
      refine (run_append _ ran).trans <| (run_append _ tested).trans <|
        (run_append _ skipped).trans ?_
      simp [here', t']
  · have apart : l ≠ keepLeft ∧ l ≠ done := by
      constructor <;> rintro rfl <;> simp_all
    refine (run_append _ (first.skips c s l (by simp [mem]) seeks)).trans ?_
    simp [run_append _ (second.skips c s l (by simp [mem]) seeks), step, seeks, apart.1.symm,
      apart.2.symm]

theorem makes_negation (watched : G.watched) (inside : Computes env G e) (position : Position) :
    Makes G σ (negation e.lower env) (fun _ => σ)
      fun _ => Evaluates env σ ⟨position, .unary .not e⟩ := by
  refine puts_freshLabel.step fun isFalse => puts_freshLabel.step fun done =>
    .given (fun a sound => (sound.watches watched).labels.nodup) fun nodup =>
    (inside _).follow fun _ ps known =>
    (puts_jump (neutral_unary _ _ _) (by simp [Stage.Knows])).step fun _ =>
    (puts_emit (neutral_constant _ _ _)).step fun _ =>
    (puts_emit (flows_branch (by simp [Stage.Knows]))).step fun _ =>
    (puts_emit (flows_label 1 rfl)).step fun _ => (puts_emit (neutral_constant _ _ _)).step fun _ =>
    (puts_emit (flows_label 0 rfl)).imp fun _ _ ended => ?_
  simp at nodup
  subst ended
  refine ⟨fun c s here => ?_, fun c s l mem seeks => ?_⟩
  · obtain ⟨t, ran, ⟨here', evaluated⟩, kept⟩ := known.runs c s here
    refine ⟨{ t with accumulator := c.bool !c.truth t.accumulator }, (run_append _ ran).trans ?_,
      ⟨here', by simp [← evaluated]⟩, fun r mem => kept r (by simp [mem])⟩
    cases decided : c.truth t.accumulator <;>
      simp [here', c.truth_bool, decided, Ne.symm nodup.1.1]
  · have apart : isFalse ≠ l ∧ done ≠ l := by
      constructor <;> rintro rfl <;> simp_all
    refine (run_append _ (known.skips c s l (by simp [mem]) seeks)).trans ?_
    simp [seeks, apart]

/-- Instructions behind segments, none of them a label. -/
theorem Conducts.append {ps : List (Segment (lowered env))}
    {post post' : ∀ {V : Type}, TestCourse V → TestMachine V → TestMachine V → Prop}
    (h : Conducts σ ps post) (is : List Instruction) (plain : ∀ i ∈ is, i.isLabel = false)
    (ends : ∀ {V : Type} (c : TestCourse V) (s t : TestMachine V), post c s t →
      ∃ u, c.run t (is.map .inl : List (Segment (lowered env))) = some u ∧ post' c s u ∧
        u.registers = t.registers) :
    Conducts σ (ps ++ is.map .inl) post' where
  runs c s here := by
    obtain ⟨t, ran, known, kept⟩ := h.runs c s here
    obtain ⟨u, ran', known', same⟩ := ends c s t known
    exact ⟨u, (run_append _ ran).trans ran', known', fun r mem => same ▸ kept r mem⟩
  skips c s l mem seeks := by
    refine (run_append _ (h.skips c s l mem seeks)).trans ?_
    clear ends
    induction is with
    | nil => rfl
    | cons i is ih =>
      have stays : c.step s (.inl i : Segment (lowered env)) = some s := by
        have other := plain i (.head _)
        cases i <;> simp_all [Instruction.isLabel]
      simpa [stays, -step] using ih fun i mem => plain i (.tail _ mem)

/-- Both operands are evaluated; the left one is kept in a register. -/
theorem conducts_operands {ps qs : List (Segment (lowered env))} {value : Register}
    (first : Evaluates env σ lhs ps) (apart : value ∉ σ.temps)
    (second : Evaluates env (σ.hold [value]) rhs qs) :
    Conducts σ (ps ++ .inl (.sta value) :: qs) fun c s t => t.goal = none ∧
      (t.accumulator, t.events) = rhs.evaluate c (lhs.evaluate c s.events).2 ∧
        t.registers value = (lhs.evaluate c s.events).1 where
  runs c s here := by
    obtain ⟨t, ran, ⟨here', evaluated⟩, kept⟩ := first.runs c s here
    obtain ⟨u, ran', ⟨here'', evaluated'⟩, kept'⟩ := second.runs c
      { t with registers := fun q => if q = value then t.accumulator else t.registers q } here'
    refine ⟨u, (run_append _ ran).trans ?_, ⟨here'', ?_, ?_⟩, fun r mem => ?_⟩
    · simpa [here'] using ran'
    · rw [evaluated', ← evaluated]
    · rw [kept' value (by simp), ← evaluated]
      simp
    · have other : r ≠ value := fun same => apart (same ▸ mem)
      rw [kept' r (by simp [mem]), ← kept r mem]
      simp [other]
  skips c s l mem seeks := by
    refine (run_append _ (first.skips c s l mem seeks)).trans ?_
    simpa [seeks] using second.skips c s l mem seeks

theorem makes_comparison (left : Computes env G lhs) (right : Computes env G rhs) {op : BinaryOp}
    (boolean : op.yieldsBoolean = true) (position : Position) :
    Makes G σ (binaryOperation op lhs.lower rhs.lower env) (fun _ => σ)
      fun _ => Evaluates env σ ⟨position, .binary op lhs rhs⟩ := by
  refine (left σ).follow fun _ ps first => puts_storeTemp.step fun value =>
    .given (fun a => Sound.not_mem_of_hold) fun apart => (right _).follow fun _ qs second =>
    (puts_emit (flows_binary op (by simp))).step fun _ =>
    (puts_freeTemps (flows_freeTemps 1 (.refl _))).imp fun _ _ ended => ?_
  subst ended
  have both : Evaluates env σ ⟨position, .binary op lhs rhs⟩ _ := (conducts_operands first apart
    second).append [.binary op value]
    (by simp [Instruction.isLabel]) fun c s t ⟨here, evaluated, kept⟩ => by
      simp [here, kept, boolean, ← evaluated]
  simpa using both

theorem Expr.computes (fields : Neutral env.fieldInit) (watched : G.watched) (e : Expr) :
    Computes env G e := by
  obtain ⟨position, kind⟩ := e
  cases kind with
  | logical op lhs rhs =>
    have left := lhs.computes fields watched
    have right := rhs.computes fields watched
    cases op with
    | and =>
      exact fun σ => puts_freshLabel.step fun _ => puts_freshLabel.step fun _ =>
        makes_shortCircuit watched left right true _ _ fun _ _ => rfl
    | or =>
      exact fun σ => puts_freshLabel.step fun _ => puts_freshLabel.step fun _ =>
        makes_shortCircuit watched left right false _ _ fun c es => by
          cases decided : c.truth (lhs.evaluate c es).1 <;> simp [decided]
    | nullish => exact computes_leaf fields fun _ _ => rfl
  | unary op operand =>
    cases op with
    | not => exact fun σ => makes_negation watched (operand.computes fields watched) position
    | _ => exact computes_leaf fields fun _ _ => rfl
  | binary op lhs rhs =>
    cases boolean : op.yieldsBoolean with
    | true =>
      exact fun σ =>
        makes_comparison (lhs.computes fields watched) (rhs.computes fields watched)
        boolean position
    | false => exact computes_leaf fields fun _ _ => by simp [boolean]
  | _ => exact computes_leaf fields fun _ _ => rfl

/-! ## Branches -/

section

variable {l : Label} (waits : l ∈ σ.labels)

include waits

/-- A jump on a value or on its negation. -/
theorem makes_jump {e' : Expr} (inside : Computes env G e) (both : Bool)
    (same : ∀ {V : Type} (c : TestCourse V) es, (e'.evaluate c es).2 = (e.evaluate c es).2 ∧
      c.truth (e'.evaluate c es).1 = (c.truth (e.evaluate c es).1 == both)) : Makes G σ ((do
      e.lower
      (unary (if both then .isTrue else .isFalse) >>= fun _ => emit (.jeqz l) : Code) : Lower Unit)
      env)
      (fun _ => σ) fun _ => Tests env l σ e' := by
  refine (inside σ).follow fun _ ps known =>
    (puts_jump (neutral_unary _ _ _) (.inl waits)).imp fun _ _ ended => ?_
  subst ended
  refine known.append _ (by simp [Instruction.isLabel]) fun c s t ⟨here, evaluated⟩ => ?_
  cases both <;> cases decided : c.truth t.accumulator <;>
    simp [here, same, ← evaluated, c.truth_bool, decided]

theorem makes_jumpUnless (inside : Computes env G e) :
    Makes G σ (jumpUnless e.lower l env) (fun _ => σ) fun _ => Tests env l σ e :=
  makes_jump waits inside true (by simp)

theorem makes_condition (left : Computes env G lhs) (right : Computes env G rhs) {op : BinaryOp}
    (boolean : op.yieldsBoolean = true) (position : Position) :
    Makes G σ (comparison op lhs.lower rhs.lower l env) (fun _ => σ)
      fun _ => Tests env l σ ⟨position, .binary op lhs rhs⟩ := by
  refine (left σ).follow fun _ ps first => puts_storeTemp.step fun value =>
    .given (fun a => Sound.not_mem_of_hold) fun apart => (right _).follow fun _ qs second =>
    (puts_jump (flows_binary op (by simp)) (by exact .inl waits)).step fun _ =>
    (puts_freeTemps (flows_freeTemps 1 (.refl _))).imp fun _ _ ended => ?_
  subst ended
  have both : Tests env l σ ⟨position, .binary op lhs rhs⟩ _ := (conducts_operands first apart
    second).append [.binary op value, .jeqz l]
    (by simp [Instruction.isLabel]) fun c s t ⟨here, evaluated, kept⟩ => by
      cases decided : c.holds t.events.length <;>
        simp [here, kept, boolean, ← evaluated, c.truth_bool, decided]
  simpa using both

end

/-- The code of a condition jumps as its value says. -/
def Branches (env : Env) (G : Guard) (e : Expr) : Prop :=
  ∀ σ l, l ∈ σ.labels →
    Makes G σ (e.lowerCondition l env) (fun _ => σ) fun _ => Tests env l σ e

theorem branches_and (left : Branches env G lhs) (right : Branches env G rhs)
    (position : Position) :
    Branches env G ⟨position, .logical .and lhs rhs⟩ := by
  refine fun σ l waits => (left σ l waits).follow fun _ ps first =>
    (right σ l waits).imp fun _ qs second => ⟨fun c s here => ?_, fun c s l mem seeks =>
      (run_append _ (first.skips c s l mem seeks)).trans (second.skips c s l mem seeks)⟩
  obtain ⟨t, ran, ⟨events, goal⟩, kept⟩ := first.runs c s here
  cases decided : c.truth (lhs.evaluate c s.events).1 with
  | true =>
    obtain ⟨u, ran', ⟨events', goal'⟩, kept'⟩ := second.runs c t (by simp [goal, decided])
    refine ⟨u, (run_append _ ran).trans ran', ?_, fun r mem => (kept' r mem).trans (kept r mem)⟩
    simp [decided, events', goal', events]
  | false =>
    have skipped := second.skips c t l waits (by simp [goal, decided])
    refine ⟨t, (run_append _ ran).trans skipped, ?_, kept⟩
    simp [decided, events, goal]

theorem branches_or (watched : G.watched) (left : Branches env G lhs) (right : Branches env G rhs)
    (position : Position) : Branches env G ⟨position, .logical .or lhs rhs⟩ := by
  refine fun σ l waits => puts_freshLabel.step fun next => puts_freshLabel.step fun taken =>
    .given (fun a sound => (sound.watches watched).labels.nodup) fun nodup =>
    (left _ next (by simp)).follow fun _ ps first =>
    (puts_emit (flows_branch (by simp [Stage.Knows]))).step fun _ =>
    (puts_emit (flows_label 1 rfl)).step fun _ =>
    (right _ l (by simp [waits])).follow fun _ qs second =>
    (puts_emit (flows_label 0 rfl)).imp fun _ _ ended => ?_
  simp at nodup
  subst ended
  refine ⟨fun c s here => ?_, fun c s l mem seeks => ?_⟩
  · obtain ⟨t, ran, ⟨events, goal⟩, kept⟩ := first.runs c s here
    cases decided : c.truth (lhs.evaluate c s.events).1 with
    | true =>
      have here' : t.goal = none := by simp [goal, decided]
      have skipped := second.skips c { t with goal := some taken } taken (by simp) rfl
      refine ⟨t, (run_append _ ran).trans ?_, ?_, kept⟩
      · simp [here', Ne.symm nodup.1.1, run_append _ skipped]
        rw [← here']
      · simp [decided, events, here']
    | false =>
      have seeks : t.goal = some next := by simp [goal, decided]
      obtain ⟨u, ran', ⟨events', goal'⟩, kept'⟩ := second.runs c { t with goal := none } rfl
      refine ⟨u, (run_append _ ran).trans ?_, ?_, fun r mem => (kept' r mem).trans (kept r mem)⟩
      · have other : taken ≠ l := fun same => nodup.1.2 (same ▸ waits)
        have last : c.step u (.inl (.label taken) : Segment (lowered env)) = some u := by
          split at goal' <;> simp [goal', other]
        simp [seeks, run_append _ ran']
        simpa using last
      · simp [decided, events', goal', events]
  · have apart : next ≠ l ∧ taken ≠ l := by
      constructor <;> rintro rfl <;> simp_all
    refine (run_append _ (first.skips c s l (by simp [mem]) seeks)).trans ?_
    simp [seeks, apart, run_append _ (second.skips c s l (by simp [mem]) seeks)]

theorem Expr.branches (fields : Neutral env.fieldInit) (watched : G.watched) (e : Expr) :
    Branches env G e := by
  obtain ⟨position, kind⟩ := e
  have whole := Expr.computes fields watched ⟨position, kind⟩
  cases kind with
  | logical op lhs rhs =>
    have left := lhs.branches fields watched
    have right := rhs.branches fields watched
    cases op with
    | and => exact branches_and left right position
    | or => exact branches_or watched left right position
    | nullish => exact fun σ l waits => makes_jumpUnless waits whole
  | unary op operand =>
    cases op with
    | not =>
      exact fun σ l waits => makes_jump waits (operand.computes fields watched) false
        fun c es => by simp [c.truth_bool]
    | _ => exact fun σ l waits => makes_jumpUnless waits whole
  | binary op lhs rhs =>
    intro σ l waits
    rw [Expr.lowerCondition]
    cases boolean : op.yieldsBoolean with
    | true =>
      exact makes_condition waits (lhs.computes fields watched) (rhs.computes fields watched)
        boolean position
    | false => exact makes_jumpUnless waits whole
  | _ => exact fun σ l waits => makes_jumpUnless waits whole

/-- Branching on a condition agrees with evaluating it and jumping on its value, and both with the
language: the same events happen, and the label is reached if and only if the value is false. -/
theorem branches_alike (fields : InitializesFields env.fieldInit) (watched : G.watched) (e : Expr)
    {l : Label} (waits : l ∈ σ.labels) {a b b' : Assembler} (sound : Sound G σ a)
    (run : e.lowerCondition l env a = .ok ((), b))
    (run' : jumpUnless e.lower l env a = .ok ((), b')) : ∃ ps ps' : List (Segment (lowered env)),
      b.instructions = a.instructions ++ ps.flatMap Segment.code ∧
      b'.instructions = a.instructions ++ ps'.flatMap Segment.code ∧
      ∀ (V : Type) (c : TestCourse V) (s : TestMachine V), s.goal = none →
        ∃ t t', c.run s ps = some t ∧ c.run s ps' = some t' ∧
          t.events = (e.evaluate c s.events).2 ∧ t'.events = t.events ∧ t'.goal = t.goal ∧
          t.goal = if c.truth (e.evaluate c s.events).1 then none else some l := by
  obtain ⟨-, ps, emitted, tests⟩ := e.branches fields.neutral watched σ l waits a _ b sound run
  obtain ⟨-, ps', emitted', tests'⟩ :=
    makes_jumpUnless waits (e.computes fields.neutral watched) a _ b' sound run'
  refine ⟨ps, ps', emitted, emitted', fun V c s here => ?_⟩
  obtain ⟨t, ran, ⟨events, goal⟩, -⟩ := tests.runs c s here
  obtain ⟨t', ran', ⟨events', goal'⟩, -⟩ := tests'.runs c s here
  exact ⟨t, t', ran, ran', events, events'.trans events.symm, goal'.trans goal.symm, goal⟩

/-- The condition `!(x && y)`. -/
def Expr.denial : Expr :=
  let name (text : String) : Expr := ⟨⟨1, 0⟩, .identifier text⟩
  ⟨⟨1, 0⟩, .unary .not ⟨⟨1, 0⟩, .logical .and (name "x") (name "y")⟩⟩

/-- If the value of `x` is false, both ways leave `y` alone and do not jump. -/
theorem branches_alike_denial : ∃ (c : CompileContext) (b b' : Assembler)
    (ps ps' : List (Segment (lowered (c.env .program ScopeTree.rootId)))),
    b.instructions = ps.flatMap Segment.code ∧ b'.instructions = ps'.flatMap Segment.code ∧
    ∀ (V : Type) (d : TestCourse V) (s : TestMachine V), s.goal = none →
      d.truth (d.value s.events.length) = false →
      ∃ t t', d.run s ps = some t ∧ d.run s ps' = some t' ∧
        t.events = s.events ++ [.leaf ⟨⟨1, 0⟩, .identifier "x"⟩] ∧ t'.events = t.events ∧
        t.goal = none ∧ t'.goal = none := by
  have runs : ((CompileContext.ofProgram .collector {} (fun _ => none)).bind fun c =>
      c.run.map fun _ =>
      let ways := [Expr.denial.lowerCondition ⟨0⟩, jumpUnless Expr.denial.lower ⟨0⟩]
      let results := ways.map fun way =>
        way (c.env .program ScopeTree.rootId) { Assembler.nextUnit {} with nextLabel := 1 }
      results.map (·.toOption.isSome)).toOption = some [true, true] := by
    decide +kernel
  obtain ⟨c, -, -, -, ran⟩ := exists_of_compiled runs
  simp only [List.map_cons, List.cons.injEq] at ran
  obtain ⟨⟨_, b⟩, run⟩ := exists_of_isSome ran.1
  obtain ⟨⟨_, b'⟩, run'⟩ := exists_of_isSome ran.2.1
  obtain ⟨sound, -⟩ := (flows_freshLabel.ends _ (sound_nextUnit {})).post rfl
  obtain ⟨ps, ps', emitted, emitted', agrees⟩ :=
    branches_alike c.initializesFields trivial Expr.denial (.head _) sound run run'
  refine ⟨c, _, _, ps, ps', emitted, emitted', fun V d s here false => ?_⟩
  obtain ⟨t, t', ran, ran', events, events', goal', goal⟩ := agrees V d s here
  simp [Expr.denial, false, d.truth_bool] at events goal
  exact ⟨t, t', ran, ran', by simp [events], events', goal, goal'.trans goal⟩

end AccScript
