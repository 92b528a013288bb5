import AccScript.Proofs.Survey.Record
import Mathlib.Data.List.Perm.Subperm

/-!
# What the steps of the walk establish

A step of the walk records something, and what is recorded can be relied on once the survey is
complete.  `Survey.Establishes` says so of a step from one survey, `Walk.Establishes` of a step from
every survey that has enough scopes.  The nodes of a step are those whose identities it may use up;
steps after each other use up the nodes of both.
-/

namespace AccScript

variable {α β : Type} {p : Program} {σ τ : Survey} {n : Nat}
  {nodes first second : List SourceNode} {m : Walk α} {c : α → Ledger → Prop}
  {claim : α → Ledger → Prop} {f : α → Walk β} {k : Walk β} {c d : α → Ledger → Prop}

/-! ## Steps from one survey -/

/-- A step keeps the survey in order, and what it records settles a claim in the end. -/
structure Survey.Establishes (σ : Survey) (p : Program) (nodes : List SourceNode) (m : Walk α)
    (claim : α → Ledger → Prop) : Prop where
  outcome : σ.Tidy p → σ.Fresh p nodes → ∀ x τ, m.run σ = .ok (x, τ) →
    σ.Advances p nodes τ ∧ ∀ L : Ledger, L.program = p → L.Upholds τ → claim x L

namespace Survey

theorem Le.size_le (h : σ.Le τ) : σ.tree.scopes.size ≤ τ.tree.scopes.size := by
  by_contra fewer
  exact Nat.lt_irrefl _ (h.lt_size (Nat.not_le.mp fewer))

namespace Establishes

theorem bind {d : α → β → Ledger → Prop} (head : σ.Establishes p first m c)
    (next : ∀ x τ, m.run σ = .ok (x, τ) → σ.Advances p first τ →
      τ.Establishes p second (f x) (d x)) :
    σ.Establishes p (first ++ second) (m >>= f) fun y L => ∃ x, c x L ∧ d x y L := by
  refine ⟨fun tidy fresh y υ run => ?_⟩
  rw [StateT.run_bind] at run
  cases step : m.run σ with
  | error failure =>
    rw [step] at run
    cases run
  | ok result =>
    obtain ⟨x, τ⟩ := result
    rw [step] at run
    obtain ⟨advance, claimed⟩ := head.outcome tidy fresh.left x τ step
    obtain ⟨advance', claimed'⟩ :=
      (next x τ step advance).outcome advance.tidy (fresh.right tidy advance) y υ run
    exact ⟨advance.trans advance', fun L own upheld =>
      ⟨x, claimed L own (upheld.mono advance'.le), claimed' L own upheld⟩⟩

theorem imp (h : σ.Establishes p nodes m c)
    (weaker : ∀ x L, L.surveyed → c x L → d x L) : σ.Establishes p nodes m d := by
  refine ⟨fun tidy fresh x τ run => ?_⟩
  obtain ⟨advance, claimed⟩ := h.outcome tidy fresh x τ run
  exact ⟨advance, fun L own upheld => weaker x L upheld.known (claimed L own upheld)⟩

/-- A step may leave nodes unused. -/
theorem mono {more : List SourceNode}
    (h : σ.Establishes p nodes m c) (sub : nodes.Subperm more) : σ.Establishes p more m c := by
  refine ⟨fun tidy fresh x τ run => ?_⟩
  obtain ⟨advance, claimed⟩ := h.outcome tidy (fresh.mono sub) x τ run
  exact ⟨advance.mono sub.subset, claimed⟩

end Establishes

end Survey

/-! ## Steps from every survey -/

def Walk.Establishes (p : Program) (n : Nat) (nodes : List SourceNode) (m : Walk α)
    (claim : α → Ledger → Prop) : Prop :=
  ∀ σ : Survey, n ≤ σ.tree.scopes.size → σ.Establishes p nodes m claim

namespace Walk.Establishes

theorem pure {x : α} {d : α → Ledger → Prop} (h : ∀ L : Ledger, d x L) :
    Establishes p n [] (Pure.pure x) d := by
  refine fun σ _ => ⟨fun tidy _ y τ run => ?_⟩
  cases run
  exact ⟨.refl tidy _, fun L _ _ => h L⟩

theorem throw {failure : Failure} : Establishes p n nodes (throw failure : Walk α) claim :=
  fun _ _ => ⟨fun _ _ _ _ run => by cases run⟩

theorem bind {d : α → β → Ledger → Prop}
    (head : Establishes p n first m c) (next : ∀ x, Establishes p n second (f x) (d x)) :
    Establishes p n (first ++ second) (m >>= f) fun y L => ∃ x, c x L ∧ d x y L :=
  fun σ many => (head σ many).bind fun x τ _ advance =>
    next x τ (Nat.le_trans many advance.le.size_le)

theorem imp (h : Establishes p n nodes m c)
    (weaker : ∀ x L, L.surveyed → c x L → d x L) : Establishes p n nodes m d :=
  fun σ many => (h σ many).imp weaker

theorem impUpheld (h : Establishes p n nodes m c)
    (weaker : ∀ x (L : Ledger), L.program = p → (∃ τ, L.Upholds τ) → c x L → d x L) :
    Establishes p n nodes m d := by
  refine fun σ many => ⟨fun tidy fresh x τ run => ?_⟩
  obtain ⟨advance, claimed⟩ := (h σ many).outcome tidy fresh x τ run
  exact ⟨advance, fun L own upheld => weaker x L own ⟨τ, upheld⟩ (claimed L own upheld)⟩

theorem andThen {c d : Ledger → Prop}
    (head : Establishes p n first m fun _ => c) (next : Establishes p n second k fun _ => d) :
    Establishes p n (first ++ second) (m >>= fun _ => k) fun _ L => c L ∧ d L :=
  (head.bind fun _ => next).imp fun _ _ _ ⟨_, both⟩ => both

/-- A step that uses no nodes comes last. -/
theorem andNote {c d : Ledger → Prop}
    (head : Establishes p n nodes m fun _ => c) (next : Establishes p n [] k fun _ => d) :
    Establishes p n nodes (m >>= fun _ => k) fun _ L => c L ∧ d L := by
  have both := head.andThen next
  rwa [List.append_nil] at both

/-- The nodes of three parts, however they are grouped. -/
theorem regroup {third : List SourceNode} (h : Establishes p n (first ++ (second ++ third)) m c) :
    Establishes p n (first ++ second ++ third) m c := by
  rwa [List.append_assoc]

theorem mono {more : List SourceNode}
    (h : Establishes p n nodes m c) (sub : nodes.Subperm more) : Establishes p n more m c :=
  fun σ many => (h σ many).mono sub

theorem cons {node : SourceNode}
    (h : Establishes p n nodes m c) : Establishes p n (node :: nodes) m c :=
  h.mono (List.sublist_cons_self node nodes).subperm

theorem knowing (h : (∀ node ∈ nodes, node ∈ p.nodes) → Establishes p n nodes m c) :
    Establishes p n nodes m c :=
  fun σ many => ⟨fun tidy fresh x τ run => (h fresh.known σ many).outcome tidy fresh x τ run⟩

/-- A step with a value that is followed by one that uses no nodes. -/
theorem bindNote {c d : Ledger → Prop}
    (head : Establishes p n nodes m fun _ => c) (next : ∀ x, Establishes p n [] (f x) fun _ => d) :
    Establishes p n nodes (m >>= f) fun _ => c := by
  have both := head.bind next
  rw [List.append_nil] at both
  exact both.imp fun _ _ _ ⟨_, holds, _⟩ => holds

theorem modify {f : Survey → Survey} {claim : Ledger → Prop}
    (advance : ∀ σ : Survey, σ.Tidy p → n ≤ σ.tree.scopes.size → σ.Advances p [] (f σ))
    (h : ∀ (σ : Survey) (L : Ledger), σ.Tidy p → n ≤ σ.tree.scopes.size → L.program = p →
      L.Upholds (f σ) → claim L) :
    Establishes p n [] (modify f : Walk Unit) fun _ => claim := by
  refine fun σ many => ⟨fun tidy _ x τ run => ?_⟩
  cases run
  exact ⟨advance σ tidy many, fun L own upheld => h σ L tidy many own upheld⟩

theorem get {f : Survey → Walk α}
    (h : ∀ σ : Survey, n ≤ σ.tree.scopes.size → σ.Establishes p nodes (f σ) claim) :
    Establishes p n nodes (MonadState.get >>= f) claim :=
  fun σ many => ⟨(h σ many).outcome⟩

theorem forM {f : α → Walk Unit} {items : List α}
    (h : ∀ x ∈ items, Establishes p n [] (f x) fun _ => claim x) :
    Establishes p n [] (items.forM f) fun _ L => ∀ x ∈ items, claim x L := by
  induction items with
  | nil => exact pure fun _ => nofun
  | cons x rest ih =>
    have others := ih fun y mem => h y (.tail _ mem)
    refine ((h x (.head _)).andThen others).imp fun _ L _ ⟨own, all⟩ y mem => ?_
    rcases List.mem_cons.mp mem with rfl | mem
    · exact own
    · exact all y mem

end Walk.Establishes

end AccScript
