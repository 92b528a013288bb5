import AccScript.Proofs.Code.Conditions

/-!
# Dispatch of a `switch`

The code of a `switch` is a chain of tests with the bodies behind it, tied together by labels.
`dispatches_cases` runs it on a machine that is told how comparisons come out and which bodies end
with a jump: the tests and bodies that run are those that the language says, in its order.
-/

namespace AccScript

open Asm Lower

variable {V : Type} {G : Guard} {σ : Stage} {env : Env} {discriminant : Expr}
  {cases rest : List SwitchCase}

/-! ## The language -/

/-- A part of a `switch`; tests and bodies are those of the case at an index. -/
inductive SwitchPart where
  | discriminant
  | functions
  | test (index : Nat)
  | body (index : Nat)

/-- What happens while a `switch` is executed. -/
inductive SwitchEvent (V : Type) where
  | ran (part : SwitchPart)
  | compared (lhs rhs : V)

/-- A course of tests that also says, by the number of events before, with which jump a body ends. -/
structure SwitchCourse (V : Type) extends TestCourse V where
  exits : Nat → Option Label

namespace SwitchCourse

variable (c : SwitchCourse V)

/-- The index of the first case whose test gives the value, and the events up to this test. -/
def select (value : V) : Nat → List SwitchCase → List (SwitchEvent V) →
    Option Nat × List (SwitchEvent V)
  | _, [], es => (none, es)
  | k, ⟨none, _⟩ :: rest, es => select value (k + 1) rest es
  | k, ⟨some _, _⟩ :: rest, es =>
      let es' := es ++ [.ran (.test k), .compared value (c.value es.length)]
      if c.holds (es.length + 1) then (some k, es') else select value (k + 1) rest es'

/-- The bodies at some indices are executed up to the first that ends with a jump. -/
def proceed : List Nat → List (SwitchEvent V) → Option Label × List (SwitchEvent V)
  | [], es => (none, es)
  | k :: rest, es =>
      match c.exits es.length with
      | some l => (some l, es ++ [.ran (.body k)])
      | none => proceed rest (es ++ [.ran (.body k)])

/-- The cases of a `switch` for a value: the bodies from the selected case on, or from the default
case if none is selected. -/
def dispatch (value : V) (cases : List SwitchCase) (es : List (SwitchEvent V)) :
    Option Label × List (SwitchEvent V) :=
  let selected := c.select value 0 cases es
  (selected.1.or (cases.findIdx? (·.test.isNone))).elim (none, selected.2)
    fun k => c.proceed (List.range' k (cases.length - k)) selected.2

/-- A `switch`: the jump that leaves it, if one does, and the events up to its end. -/
def execute (cases : List SwitchCase) (es : List (SwitchEvent V)) :
    Option Label × List (SwitchEvent V) :=
  c.dispatch (c.value es.length) cases (es ++ [.ran .discriminant, .ran .functions])

end SwitchCourse

/-! ## The machine -/

/-- The code of the parts of a `switch`, each in an environment. -/
def switchCode (discriminant : Expr) (cases : List SwitchCase) : SwitchPart × Env → Code
  | (.discriminant, env) => discriminant.lower env
  | (.functions, env) => instantiateFunctions (cases.flatMap SwitchCase.body) env
  | (.test k, env) => ((cases[k]?.bind SwitchCase.test).map Expr.lower).getD (pure ()) env
  | (.body k, env) => Statement.lowerEach ((cases[k]?.map SwitchCase.body).getD []) env

/-- Code for a `switch`, in segments. -/
abbrev SwitchCode (discriminant : Expr) (cases : List SwitchCase) :=
  List (Segment (switchCode discriminant cases))

/-- A machine that runs code forward; `goal` is the label that it looks for after a jump. -/
structure SwitchMachine (V : Type) where
  accumulator : V
  registers : Register → V
  events : List (SwitchEvent V)
  goal : Option Label

namespace SwitchCourse

/-- A part leaves a value, may change registers, and may end with a jump if it is a body. -/
def perform (c : SwitchCourse V) (s : SwitchMachine V)
    (part : Inner (switchCode discriminant cases)) : SwitchMachine V where
  accumulator := c.value s.events.length
  registers r := if r ∈ part.written then c.leaves s.events.length r else s.registers r
  events := s.events ++ [.ran part.of.1]
  goal := match part.of.1 with
    | .body _ => c.exits s.events.length
    | _ => none

/-- One segment.  The machine stops if what it looks for is inside a part. -/
def step (c : SwitchCourse V) (s : SwitchMachine V) :
    Segment (switchCode discriminant cases) → Option (SwitchMachine V)
  | p =>
    match s.goal, p with
    | some l, .inl (.label l') => some (if l' = l then { s with goal := none } else s)
    | some _, .inl _ => some s
    | some l, .inr part => if .label l ∈ part.code then none else some s
    | none, .inr part => some (c.perform s part)
    | none, .inl i =>
      match i with
      | .label _ => some s
      | .sta r => some { s with
          registers := fun q => if q = r then s.accumulator else s.registers q }
      | .binary .strictEq r => some { s with
          accumulator := c.bool (c.holds s.events.length)
          events := s.events ++ [.compared (s.registers r) s.accumulator] }
      | .jmp l => some { s with goal := some l }
      | .jnez l => some (if c.truth s.accumulator then { s with goal := some l } else s)
      | _ => none

def run (c : SwitchCourse V) (s : SwitchMachine V)
    (segments : SwitchCode discriminant cases) : Option (SwitchMachine V) :=
  segments.foldlM c.step s

variable {c : SwitchCourse V} {s t : SwitchMachine V} {l : Label}
  {ps qs : SwitchCode discriminant cases}

@[simp]
theorem run_nil : c.run s ([] : SwitchCode discriminant cases) = some s :=
  rfl

@[simp]
theorem run_cons (p : Segment (switchCode discriminant cases)) :
    c.run s (p :: ps) = (c.step s p).bind (c.run · ps) :=
  rfl

theorem run_append (h : c.run s ps = some t) : c.run s (ps ++ qs) = c.run t qs := by
  rw [run, List.foldlM_append, ← run, h]
  rfl

theorem step_label : c.step s (.inl (.label l) : Segment (switchCode discriminant cases)) =
    some { s with goal := s.goal.filter (· ≠ l) } := by
  obtain ⟨accumulator, registers, events, goal⟩ := s
  cases goal with
  | none => rfl
  | some l' => by_cases same : l = l' <;> simp [step, Option.filter, same, Ne.symm]

theorem step_skip {p : Segment (switchCode discriminant cases)} (seeks : s.goal = some l)
    (absent : .label l ∉ p.code) : c.step s p = some s := by
  cases p with
  | inr part => simpa [step, seeks, Segment.code] using absent
  | inl i =>
    cases i
    case label l' =>
      have other : l' ≠ l := fun same => absent (same ▸ .head _)
      simp [step, seeks, other]
    all_goals simp [step, seeks]

/-- Code without the label that is looked for is passed over. -/
theorem run_skip (seeks : s.goal = some l) (absent : .label l ∉ ps.flatMap Segment.code) :
    c.run s ps = some s := by
  induction ps with
  | nil => rfl
  | cons p ps ih =>
    rw [List.flatMap_cons, List.mem_append, not_or] at absent
    rw [run_cons, step_skip seeks absent.1]
    exact ih absent.2

end SwitchCourse

open SwitchCourse

/-! ## Tests -/

/-- Segments run the tests of cases and jump to the label of the first that matches. -/
def Chooses (value : Register) (k : Nat) (rest : List SwitchCase) (targets : List Label)
    (segments : SwitchCode discriminant cases) : Prop :=
  ∀ {V : Type} (c : SwitchCourse V) (s : SwitchMachine V), s.goal = none →
    ∃ t, c.run s segments = some t ∧
      t.events = (c.select (s.registers value) k rest s.events).2 ∧
      t.goal = (c.select (s.registers value) k rest s.events).1.bind (targets[·]?) ∧
      t.goal.isSome = (c.select (s.registers value) k rest s.events).1.isSome

theorem of_drop_eq_cons {α : Type} {xs ys : List α} {y : α} {k : Nat} (h : xs.drop k = y :: ys) :
    xs[k]? = some y ∧ xs.drop (k + 1) = ys := by
  constructor
  · have first : (xs.drop k)[0]? = xs[k + 0]? := List.getElem?_drop
    simpa [h] using first.symm
  · rw [← List.tail_drop, h, List.tail_cons]

/-- The induction is on the cases from an index on, since the index is what the events show. -/
theorem makes_caseTests (watched : G.watched) (fields : Neutral env.fieldInit) {value : Register}
    (own : value ∈ σ.temps) {targets : List Label} (waits : ∀ l ∈ targets, l ∈ σ.labels)
    {default : Option Label} (single : default.toList.length + rest.countP (·.test.isNone) ≤ 1)
    {k : Nat} {labels : List Label} (suffix : cases.drop k = rest)
    (behind : targets.drop k = labels) (length : labels.length = rest.length) :
    Makes G σ (caseTests value default ((SwitchCase.lowerEach rest).zip labels) env) (fun _ => σ)
      fun l (ps : SwitchCode discriminant cases) =>
        l = default.or ((rest.findIdx? (·.test.isNone)).bind (labels[·]?)) ∧
          Chooses value k rest targets ps := by
  induction rest generalizing k labels default with
  | nil => exact .pure (υ := fun _ => σ) ⟨by simp, fun c s here => ⟨s, rfl, rfl, here, by simp [here, select]⟩⟩
  | cons case rest ih =>
    obtain ⟨target, labels, rfl⟩ := List.exists_cons_of_length_eq_add_one length
    obtain ⟨found, after⟩ := of_drop_eq_cons suffix
    obtain ⟨found', after'⟩ := of_drop_eq_cons behind
    have others {default} single := @ih default single _ _ after after' (Nat.succ.inj length)
    rw [List.countP_cons] at single
    obtain ⟨_ | e, body⟩ := case
    · have told : default.toList.length + (rest.countP (·.test.isNone) + 1) ≤ 1 := single
      have untold : default = none :=
        Option.toList_eq_nil_iff.mp (List.eq_nil_of_length_eq_zero (by omega))
      have single' : (some target).toList.length + rest.countP (·.test.isNone) ≤ 1 := by
        simp only [Option.toList_some, List.length_singleton]
        omega
      refine (others single').imp fun l ps known => ?_
      exact ⟨by simpa [untold, List.findIdx?_cons] using known.1, known.2⟩
    · have code : switchCode discriminant cases (.test k, env) = e.lower env := by
        simp [switchCode, found]
      have first : Makes G σ (e.lower env) _ _ := code ▸
        makes_inner (switchCode discriminant cases) (code ▸ e.lower_neutral fields)
      have target_waits := waits target (List.mem_of_getElem? found')
      refine first.follow fun _ ps known => (puts_emit (flows_binary _ own)).step fun _ =>
        (puts_emit (flows_jump target (.inl target_waits) rfl rfl rfl)).step fun _ =>
        ((others (by simpa using single)).fresh watched).imp fun l qs ended => ?_
      obtain ⟨part, of, rfl, spares⟩ := known
      obtain ⟨⟨same, chooses⟩, fresh⟩ := ended
      refine ⟨by simpa [List.findIdx?_cons, Option.bind_map, Function.comp_def] using same,
        fun c s here => ?_⟩
      let n := s.events.length
      let s' : SwitchMachine _ := { c.perform s part with
        accumulator := c.bool (c.holds (n + 1))
        events := s.events ++ [.ran (.test k), .compared (s.registers value) (c.value n)]
        goal := none }
      have kept : s'.registers value = s.registers value := if_neg (spares value own)
      cases decided : c.holds (n + 1) with
      | true =>
        have skipped : c.run { s' with goal := some target } qs = some _ :=
          run_skip rfl (fresh target target_waits)
        refine ⟨{ s' with goal := some target }, ?_, ?_⟩
        · simpa [step, perform, here, of, decided, c.truth_bool, spares value own, s', n] using skipped
        · simp [select, decided, n, s', found']
      | false =>
        have selected : c.select (s.registers value) k (⟨some e, body⟩ :: rest) s.events =
            c.select (s.registers value) (k + 1) rest s'.events := by
          simp [select, decided, n, s']
        obtain ⟨t, ran, ended⟩ := chooses c s' rfl
        rw [kept, ← selected] at ended
        refine ⟨t, ?_, ended⟩
        simpa [step, perform, here, of, decided, c.truth_bool, spares value own, s', n] using ran

/-! ## Bodies -/

/-- Segments run bodies in order, from the first on or from the one whose label is looked for. -/
def Proceeds (k : Nat) (targets : List Label)
    (segments : SwitchCode discriminant cases) : Prop :=
  ∀ {V : Type} (c : SwitchCourse V) (s : SwitchMachine V),
    (∀ n l, c.exits n = some l → .label l ∉ segments.flatMap Segment.code) →
    ∀ j, s.goal = none ∧ j = 0 ∨ s.goal.isSome ∧ targets[j]? = s.goal →
      ∃ t, c.run s segments = some t ∧
        (t.goal, t.events) = c.proceed (List.range' (k + j) (targets.length - j)) s.events

theorem makes_caseBodies (watched : G.watched) (suits : Suits G.watched env σ) {k : Nat}
    {targets : List Label} (suffix : cases.drop k = rest) (length : targets.length = rest.length) :
    Makes G (σ.expectAll targets) (caseBodies ((SwitchCase.lowerEach rest).zip targets) env)
      (fun _ => σ) fun _ (ps : SwitchCode discriminant cases) =>
        Proceeds k targets ps := by
  induction rest generalizing k targets with
  | nil =>
    obtain rfl := List.eq_nil_of_length_eq_zero length
    refine .pure (υ := fun _ => σ) fun c s _ j start => ⟨s, rfl, ?_⟩
    obtain ⟨here, rfl⟩ | ⟨seeks, none⟩ := start
    · rw [here]
      rfl
    · simp [← none] at seeks
  | cons case rest ih =>
    obtain ⟨target, targets, rfl⟩ := List.exists_cons_of_length_eq_add_one length
    obtain ⟨found, after⟩ := of_drop_eq_cons suffix
    have others := ih after (Nat.succ.inj length)
    obtain ⟨test, statements⟩ := case
    have code : switchCode discriminant cases (.body k, env) =
        Statement.lowerEach statements env := by
      simp [switchCode, found]
    have body : Makes G (σ.expectAll targets) (Statement.lowerEach statements env) _ _ := code ▸
      makes_part (code ▸ Statement.lowerEach_settles statements env G _ (suits.expectAll targets))
    have place : (σ.expectAll (target :: targets)).labels[targets.length]? = some target := by
      simp [Stage.expectAll]
    refine .given (fun a sound => (sound.watches watched).labels.nodup) fun nodup =>
      (puts_emit (flows_label _ place)).step fun _ => ?_
    rw [Stage.place_expectAll]
    refine (body.fresh watched).follow fun _ _ known => others.imp fun _ qs proceeds => ?_
    obtain ⟨⟨part, of, rfl⟩, fresh⟩ := known
    intro V c s leaves j start
    have leaves' n l (exit : c.exits n = some l) : .label l ∉ qs.flatMap Segment.code :=
      fun mem => leaves n l exit (by simp [mem])
    have enters (s : SwitchMachine V) (here : s.goal = none) :
        ∃ t, c.run s (.inr part :: qs) = some t ∧
          (t.goal, t.events) = c.proceed (List.range' k (targets.length + 1)) s.events := by
      have events : (c.perform s part).events = s.events ++ [.ran (.body k)] := by
        simp [perform, of]
      have goal : (c.perform s part).goal = c.exits s.events.length := by simp [perform, of]
      have stepped : c.step s (.inr part) = some (c.perform s part) := by simp [step, here]
      rw [run_cons, stepped, List.range'_succ, proceed, ← events]
      cases exit : c.exits s.events.length with
      | some l => exact ⟨_, run_skip (goal.trans exit) (leaves' _ l exit), by simp [goal, exit]⟩
      | none => exact proceeds c _ leaves' 0 (.inl ⟨goal.trans exit, rfl⟩)
    obtain ⟨here, rfl⟩ | ⟨seeks, found⟩ := start
    · obtain ⟨t, ran, ended⟩ := enters s here
      exact ⟨t, by simpa [step, here] using ran, ended⟩
    · cases j with
      | zero =>
        obtain ⟨t, ran, ended⟩ := enters { s with goal := none } rfl
        have seeks : s.goal = some target := found.symm
        exact ⟨t, by simpa [step, seeks] using ran, ended⟩
      | succ j =>
        obtain ⟨l, seeks'⟩ := Option.isSome_iff_exists.mp seeks
        have mem : l ∈ targets := List.mem_of_getElem? (found.trans seeks')
        have unique : (target :: targets).Nodup := List.nodup_reverse.mp (List.nodup_append.mp nodup).1
        have other : target ≠ l := fun same => (List.nodup_cons.mp unique).1 (same ▸ mem)
        have absent : .label l ∉ part.code := by
          simpa [Segment.code] using fresh l (by simp [Stage.expectAll, mem])
        obtain ⟨t, ran, ended⟩ := proceeds c s leaves' j (.inr ⟨seeks, found⟩)
        refine ⟨t, ?_, ?_⟩
        · simpa [step, seeks', other, absent] using ran
        · rw [ended, List.length_cons, Nat.add_sub_add_right, Nat.add_right_comm, Nat.add_assoc]

/-! ## Whole statements -/

theorem puts_scopeOf {ι : Type} {lowers : ι → Code} (node : NodeId) :
    Puts lowers G σ (scopeOf node env) (fun _ => σ) fun _ => [] := by
  refine puts_of_run (neutral_scopeOf node G σ) fun a x b run => ?_
  obtain ⟨_, -, ⟨⟩⟩ := exists_of_bind_eq_ok (x := env.survey.scopeOf node)
    (f := fun scope => .ok (scope, a)) run
  exact (List.append_nil _).symm

theorem puts_beginBreakable {ι : Type} {lowers : ι → Code} (l : Label) (names : List String)
    (acceptsUnlabelled : Bool) : Puts lowers G σ (beginBreakable l names acceptsUnlabelled)
      (fun _ => σ.breakable l names acceptsUnlabelled) fun _ => [] := by
  refine puts_of_run (flows_beginBreakable l names acceptsUnlabelled) ?_
  rintro a x b ⟨⟩
  exact (List.append_nil _).symm

theorem puts_endBreakable {ι : Type} {lowers : ι → Code} {l : Label} {names : List String}
    {acceptsUnlabelled : Bool} :
    Puts lowers G (σ.breakable l names acceptsUnlabelled) endBreakable (fun _ => σ) fun _ => [] := by
  intro a x b sound run
  refine ⟨((flows_endBreakable.ends a sound).post run).1, [], ?_, rfl⟩
  rw [endBreakable, Asm.run_bind_of_ok (m := endBoundary _) (run_endBoundary sound.boundaries)] at run
  cases run
  exact (List.append_nil _).symm

theorem makes_freshLabels {ι α : Type} {lowers : ι → Code} (items : List α) :
    Makes G σ (freshLabels items) σ.expectAll fun ls (ps : List (Segment lowers)) =>
      ps = [] ∧ ls.length = items.length := by
  induction items generalizing σ with
  | nil =>
    show Makes G (σ.expectAll []) (pure []) σ.expectAll _
    exact .pure ⟨rfl, rfl⟩
  | cons item rest ih =>
    refine puts_freshLabel.bind fun l => ih.bind fun ls ps known => ?_
    obtain ⟨rfl, length⟩ := known
    have same : (σ.expect l).expectAll ls = σ.expectAll (l :: ls) := by
      simp [Stage.expect, Stage.expectAll]
    rw [same]
    exact .pure (υ := σ.expectAll) ⟨rfl, congrArg (· + 1) length⟩

theorem length_lowerEach (cases : List SwitchCase) :
    (SwitchCase.lowerEach cases).length = cases.length := by
  induction cases with
  | nil => rfl
  | cons case cases ih => exact congrArg (· + 1) ih

/-- Segments run the cases of a `switch`, and then the machine stands behind them or looks for a
label that is elsewhere. -/
def Dispatches (value : Register) (segments : SwitchCode discriminant cases) :
    Prop :=
  ∃ done, ∀ {V : Type} (c : SwitchCourse V) (s : SwitchMachine V), s.goal = none →
    (∀ n l, c.exits n = some l → l = done ∨ .label l ∉ segments.flatMap Segment.code) →
    ∃ t, c.run s segments = some t ∧
      let left := c.dispatch (s.registers value) cases (s.events ++ [.ran .functions])
      (t.goal, t.events) = (left.1.filter (· ≠ done), left.2)

theorem Dispatches.of_parts {value : Register} {part : Inner (switchCode discriminant cases)}
    {targets : List Label} {default : Option Label} {done : Label}
    {ps qs : SwitchCode discriminant cases} (of : part.of.1 = .functions)
    (spares : value ∉ part.written) (length : targets.length = cases.length)
    (chooses : Chooses value 0 cases targets ps)
    (same : default = (cases.findIdx? (·.test.isNone)).bind (targets[·]?))
    (proceeds : Proceeds 0 targets qs) (behind : .label done ∉ qs.flatMap Segment.code) :
    Dispatches value
      (.inr part :: ps ++ .inl (.jmp (default.getD done)) :: qs ++ [.inl (.label done)]) := by
  refine ⟨done, fun c s here leaves => ?_⟩
  have stepped : c.step s (.inr part) = some (c.perform s part) := by simp [step, here]
  have performed : (c.perform s part).events = s.events ++ [.ran .functions] := by
    simp [perform, of]
  obtain ⟨t, ran, events, goal, jumps⟩ := chooses c (c.perform s part) (by simp [perform, of])
  rw [show (c.perform s part).registers value = s.registers value from if_neg spares, performed]
    at events goal jumps
  -- Whichever case is chosen, the machine looks for its label behind the jump.
  rcases choice : c.select (s.registers value) 0 cases (s.events ++ [.ran .functions])
    with ⟨selected, es⟩
  rw [choice] at events goal jumps
  let chosen := selected.or (cases.findIdx? (·.test.isNone))
  have spec : c.dispatch (s.registers value) cases (s.events ++ [.ran .functions]) =
      chosen.elim (none, es) fun k => c.proceed (List.range' k (cases.length - k)) es := by
    rw [dispatch, choice]
  have inside k (found : chosen = some k) : ∃ l, targets[k]? = some l := by
    rcases Option.or_eq_some_iff.mp found with rfl | ⟨-, first⟩
    · rw [goal] at jumps
      exact Option.isSome_iff_exists.mp jumps
    · exact ⟨_, List.getElem?_eq_getElem (length ▸ (List.findIdx?_eq_some_iff_findIdx_eq.mp first).1)⟩
  let u := { t with goal := some ((chosen.bind (targets[·]?)).getD done) }
  have jumped : c.step t (.inl (.jmp (default.getD done)) :
      Segment (switchCode discriminant cases)) = some u := by
    cases selected with
    | some k =>
      obtain ⟨l, found⟩ := inside k rfl
      have seeks : t.goal = some l := by simp [goal, found]
      simp [step, seeks, u, chosen, found]
      rw [← seeks]
    | none => simp [step, goal, u, chosen, same]
  have reached qs : c.run s (.inr part :: ps ++ .inl (.jmp (default.getD done)) :: qs) = c.run u qs := by
    rw [List.cons_append, run_cons, stepped]
    exact (run_append ran).trans (by simp [jumped])
  have leaves' m l (exit : c.exits m = some l) : .label l ∉ qs.flatMap Segment.code := by
    rcases leaves m l exit with rfl | absent
    · exact behind
    · exact fun mem => absent (by simp [mem])
  have ran' : ∃ v, c.run u qs = some v ∧ v.events = (chosen.elim (none, es) fun k =>
        c.proceed (List.range' k (cases.length - k)) es).2 ∧
      v.goal.filter (· ≠ done) = (chosen.elim (none, es) fun k =>
        c.proceed (List.range' k (cases.length - k)) es).1.filter (· ≠ done) := by
    cases found : chosen with
    | some k =>
      obtain ⟨l, target⟩ := inside k found
      obtain ⟨v, ran', ended⟩ := proceeds c u leaves' k (.inr ⟨rfl, by simp [u, found, target]⟩)
      rw [Nat.zero_add, length, show u.events = es from events] at ended
      exact ⟨v, ran', congrArg Prod.snd ended, by rw [Option.elim_some, ← ended]⟩
    | none =>
      have seeks : u.goal = some done := by simp [u, found]
      exact ⟨u, run_skip seeks behind, events, by simp [seeks]⟩
  obtain ⟨v, ran', events', goal'⟩ := ran'
  refine ⟨{ v with goal := v.goal.filter (· ≠ done) }, ?_, ?_⟩
  · rw [List.append_assoc]
    exact (reached _).trans ((run_append ran').trans (by rw [run_cons, step_label]; rfl))
  · rw [spec]
    exact Prod.ext goal' events'

theorem makes_switchOn (watched : G.watched) (suits : Suits G.watched env σ)
    (single : cases.countP (·.test.isNone) ≤ 1) (node : NodeId) (names : List String) :
    Makes G σ (switchOn node names discriminant.lower (cases.flatMap SwitchCase.body)
      (SwitchCase.lowerEach cases) env) (fun _ => σ)
      fun _ (ps : SwitchCode discriminant cases) =>
        ∃ (part : Inner (switchCode discriminant cases)) (value : Register) (qs : List _),
          part.of = (.discriminant, env) ∧ ps = .inr part :: .inl (.sta value) :: qs ∧
            Dispatches value qs := by
  have first : Makes G σ (switchCode discriminant cases (.discriminant, env)) _ _ :=
    makes_inner _ (discriminant.lower_neutral suits.fields)
  refine first.follow (m := discriminant.lower) fun _ _ known => puts_storeTemp.step fun value =>
    Makes.follow (m := inScopeOf node _) (τ := fun _ => σ.hold [value])
      (P := fun _ => Dispatches value) ?_ fun _ qs dispatches =>
    (puts_freeTemps (flows_freeTemps 1 (.refl _))).imp fun _ _ ended => ?_
  · refine (puts_scopeOf node).follow fun scope _ none => ?_
    subst none
    have suits := (suits.hold [value]).withScope scope
    refine puts_freshLabel.step fun done => (puts_beginBreakable done names true).step fun _ => ?_
    let around := ((σ.hold [value]).expect done).breakable done names true
    have functions : Makes G around
        (switchCode discriminant cases (.functions, { env with scope })) _ _ :=
      makes_inner _ (tame_instantiateFunctions _ _ suits.fields)
    have inside := (suits.expect done).breakable (l := done) (.inl (.head _)) names true
    refine functions.follow (m := instantiateFunctions _) fun _ _ known =>
      (makes_freshLabels _).step fun targets _ labels => ?_
    obtain ⟨part, of, rfl, spares⟩ := known
    obtain ⟨rfl, length⟩ := labels
    rw [length_lowerEach] at length
    have own : value ∈ (around.expectAll targets).temps := by simp [around, Stage.expectAll]
    have waits l (mem : l ∈ targets) : l ∈ (around.expectAll targets).labels :=
      List.mem_append_left _ (List.mem_reverse.mpr mem)
    refine Makes.follow (makes_caseTests watched suits.fields own waits (by simpa using single)
      List.drop_zero List.drop_zero length) fun default ps tested => ?_
    obtain ⟨same, chooses⟩ := tested
    rw [Option.none_or] at same
    have start : (around.expectAll targets).Knows (default.getD done) := by
      cases found : default with
      | none => exact .inl (List.mem_append_right _ (.head _))
      | some l =>
        obtain ⟨k, -, target⟩ := Option.bind_eq_some_iff.mp (same.symm.trans found)
        exact .inl (waits l (List.mem_of_getElem? target))
    refine (puts_emit (flows_branch start)).step fun _ =>
      Makes.follow (m := within _ _)
        ((makes_caseBodies watched inside List.drop_zero length).fresh watched) fun _ qs ran =>
      puts_endBreakable.step fun _ => (puts_emit (flows_label 0 rfl)).imp fun _ _ ended => ?_
    subst ended
    have dispatches := Dispatches.of_parts (congrArg Prod.fst of) (spares value (by simp [around]))
      length chooses same ran.1 (ran.2 done (.head _))
    simpa using dispatches
  · obtain ⟨part, of, rfl, -⟩ := known
    subst ended
    exact ⟨part, value, qs, of, by simp, dispatches⟩

/-- The code of a `switch` with at most one default case, wherever it is: the tests run in order up
to the first that matches; then the bodies run in order, from the case of this test or else from the
default case, until one ends with a jump. -/
theorem dispatches_cases (watched : G.watched) (suits : Suits G.watched env σ) {a b : Assembler}
    (sound : Sound G σ a) (single : cases.countP (·.test.isNone) ≤ 1) {id : NodeId}
    {position : Position} {names : List String}
    (run : (StatementKind.switch discriminant cases).lower id position names env a = .ok ((), b)) :
    ∃ (done : Label) (pieces : SwitchCode discriminant cases),
      b.instructions = a.instructions ++ pieces.flatMap Segment.code ∧
      ∀ (V : Type) (c : SwitchCourse V) (s : SwitchMachine V), s.goal = none →
        (∀ n l, c.exits n = some l → l = done ∨ .label l ∉ pieces.flatMap Segment.code) →
        ∃ t, c.run s pieces = some t ∧ t.events = (c.execute cases s.events).2 ∧
          t.goal = (c.execute cases s.events).1.filter (· ≠ done) := by
  obtain ⟨-, pieces, emitted, part, value, qs, of, rfl, done, dispatches⟩ :=
    makes_switchOn watched suits single id names a _ b sound run
  refine ⟨done, _, emitted, fun V c s here leaves => ?_⟩
  let u := c.perform s part
  obtain ⟨t, ran, ended⟩ := dispatches c
    { u with registers := fun q => if q = value then u.accumulator else u.registers q }
    (by simp [u, perform, of])
    fun n l exit => (leaves n l exit).imp_right fun absent mem => absent (by simp [mem])
  have same : c.dispatch u.accumulator cases (u.events ++ [.ran .functions]) =
      c.execute cases s.events := by
    simp [execute, u, perform, of]
  simp only [if_true, same] at ended
  refine ⟨t, ?_, congrArg Prod.snd ended, congrArg Prod.fst ended⟩
  simpa [step, perform, here, of, u] using ran

/-- The cases of `switch (x) { case y: default: z; case w: }`. -/
def SwitchCase.defaultBetween : List SwitchCase :=
  let name (text : String) : Expr := ⟨⟨1, 0⟩, .identifier text⟩
  [⟨some (name "y"), []⟩, ⟨none, [⟨1, ⟨1, 0⟩, .expression (name "z")⟩]⟩, ⟨some (name "w"), []⟩]

/-- Both tests come before the default case, from which the bodies run on. -/
theorem dispatches_cases_defaultBetween : ∃ (b : Assembler)
    (pieces : SwitchCode ⟨⟨1, 0⟩, .identifier "x"⟩ SwitchCase.defaultBetween),
    b.instructions = pieces.flatMap Segment.code ∧
    ∀ (V : Type) (c : SwitchCourse V) (s : SwitchMachine V), s.goal = none → s.events = [] →
      (∀ n, c.holds n = false) → (∀ n, c.exits n = none) →
      ∃ t, c.run s pieces = some t ∧ t.goal = none ∧ t.events =
        [.ran .discriminant, .ran .functions, .ran (.test 0), .compared (c.value 0) (c.value 2),
          .ran (.test 2), .compared (c.value 0) (c.value 4), .ran (.body 1), .ran (.body 2)] := by
  have runs : ((CompileContext.ofProgram .collector {} (fun _ => none)).bind fun c =>
      c.run.map fun _ =>
      ((StatementKind.switch ⟨⟨1, 0⟩, .identifier "x"⟩ SwitchCase.defaultBetween).lower 0 ⟨1, 0⟩ []
        (c.env .program ScopeTree.rootId) (Assembler.nextUnit {})).toOption.isSome).toOption =
      some true := by
    decide +kernel
  obtain ⟨c, -, -, -, ran⟩ := exists_of_compiled runs
  obtain ⟨⟨_, b⟩, run⟩ := exists_of_isSome ran
  obtain ⟨done, pieces, emitted, dispatches⟩ := dispatches_cases trivial
    (suits_env ScopeTree.rootId True) (sound_nextUnit {}) (by decide) run
  refine ⟨b, pieces, emitted, fun V c s here fresh holds exits => ?_⟩
  obtain ⟨t, ran, events, goal⟩ := dispatches V c s here fun n l exit => by simp [exits n] at exit
  simp [fresh, execute, dispatch, select, proceed, SwitchCase.defaultBetween, holds, exits,
    List.findIdx?_cons, List.range'] at events goal
  exact ⟨t, ran, goal, events⟩

end AccScript
