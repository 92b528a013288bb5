import AccScript.Proofs.Scope.Creation

/-!
# The links of a scope tree

A scope knows its parent and its children, a variable scope also the variable scopes around it and
directly inside it.  The links are set when a scope is added and never again, so it is enough to
follow that one step; all other steps leave the links as they are and only add declarations,
variables and names.

The main result holds of every tree that is built step by step from its root: parents stand before
their children and every walk upward ends at the root, both kinds of links have exact inverses,
scopes have the data that their kinds ask for, and names stand for variables of their own scope.
-/

namespace AccScript

variable {s parent : ScopeId} {node : NodeId} {name : String}

theorem OrderedMap.mem_insert {κ α : Type} [DecidableEq κ] {m : OrderedMap κ α} {key : κ}
    {value : α} {entry : κ × α} (mem : entry ∈ m.insert key value) :
    entry = (key, value) ∨ entry ∈ m := by
  induction m with
  | nil => exact .inl (List.mem_singleton.mp mem)
  | cons first rest ih =>
    rw [insert] at mem
    split at mem
    · exact (List.mem_cons.mp mem).imp id (.tail _)
    · rcases List.mem_cons.mp mem with rfl | mem
      · exact .inr (.head _)
      · exact (ih mem).imp id (.tail _)

/-- The links of a scope, and which data it has. -/
structure Scope.Links where
  kind : ScopeKind
  parent : Option ScopeId
  children : List ScopeId
  hasEnv : Bool
  /-- The variable scope around a variable scope. -/
  outer : Option ScopeId
  /-- The variable scopes directly inside a variable scope. -/
  inner : Option (List ScopeId)

def Scope.links (scope : Scope) : Scope.Links where
  kind := scope.kind
  parent := scope.parent
  children := scope.children
  hasEnv := scope.env.isSome
  outer := scope.variableScope.bind VariableScope.parent
  inner := scope.variableScope.map VariableScope.children

/-- A scope is put below this one, and as a variable scope directly inside this one. -/
def Scope.Links.adopt (l : Scope.Links) (child : ScopeId) (below inside : Prop) [Decidable below]
    [Decidable inside] : Scope.Links :=
  { l with
    children := if below then l.children ++ [child] else l.children
    inner := l.inner.map fun inner => if inside then inner ++ [child] else inner }

namespace ScopeTree

variable {t u : ScopeTree}

/-- A tree that is built step by step from its root. -/
inductive Built : ScopeTree → Prop
  | root {kind : ScopeKind} {node : NodeId} {t : ScopeTree} : ofRoot? kind node = some t → Built t
  | scope {t : ScopeTree} {parent : ScopeId} (kind : ScopeKind) (node : NodeId) :
      Built t → parent < t.scopes.size → Built (t.addScope kind node (some parent))
  | variable {t : ScopeTree} {s : ScopeId} (name : String) (kind : VarKind) (role : ModuleRole) :
      Built t → s < t.scopes.size → Built (t.add s name kind role).2
  | decl {t : ScopeTree} {s : ScopeId} (decl : Decl) :
      Built t → s < t.scopes.size → Built (t.addDecl s decl)
  | parameter {t : ScopeTree} {s : ScopeId} (name : String) (kind : VarKind)
      (isImplicit isVisible : Bool) : Built t → t.isVariableScope s = true →
      Built (t.addParameter s name kind isImplicit isVisible).2
  | hoisted {t : ScopeTree} {s : ScopeId} (decl : Decl) :
      Built t → t.isVariableScope s = true → Built (t.addHoisted s decl)

def links? (t : ScopeTree) (s : ScopeId) : Option Scope.Links :=
  (t.scope? s).map Scope.links

/-- The variable scope around a variable scope. -/
def outer? (t : ScopeTree) (s : ScopeId) : Option ScopeId :=
  (t.links? s).bind Scope.Links.outer

/-- The scopes that a link connects with this one. -/
def linkedTo (t : ScopeTree) (link? : ScopeId → Option ScopeId) (s : ScopeId) : List ScopeId :=
  (List.range t.scopes.size).filter fun c => link? c = some s

/-- The links of a scope, as its kind and its parent determine them. -/
def linksOf (t : ScopeTree) (s : ScopeId) (kind : ScopeKind) (parent : Option ScopeId) :
    Scope.Links where
  kind
  parent
  children := t.linkedTo t.parent? s
  hasEnv := kind.isLexical
  outer := t.outerVariableScope? kind parent
  inner := if kind.isVariableScope then some (t.linkedTo t.outer? s) else none

/-- A tree whose links fit together. -/
structure Linked (t : ScopeTree) : Prop where
  root : t.isTop rootId = true ∧ t.parent? rootId = none
  below : ∀ s l, t.links? s = some l → s ≠ rootId → ∃ p : Nat, l.parent = some p ∧ p < s
  determined : ∀ s l, t.links? s = some l → l = t.linksOf s l.kind l.parent

theorem parent?_eq_links? (t : ScopeTree) (s : ScopeId) :
    t.parent? s = (t.links? s).bind Scope.Links.parent := by
  unfold parent? links?
  cases t.scope? s <;> rfl

theorem kindIs_eq_links? (t : ScopeTree) (p : ScopeKind → Bool) (s : ScopeId) :
    t.kindIs p s = ((t.links? s).map fun l => p l.kind).getD false := by
  unfold kindIs links?
  cases t.scope? s <;> rfl

theorem Linked.ordered (linked : t.Linked) : t.Ordered := by
  intro s p parent
  rw [parent?_eq_links?] at parent
  obtain ⟨l, found, own⟩ := Option.bind_eq_some_iff.mp parent
  by_cases root : s = rootId
  · rw [← parent?_eq_links?, root, linked.root.2] at parent
    cases parent
  · obtain ⟨q, other, before⟩ := linked.below s l found root
    obtain rfl : q = p := Option.some.inj (other.symm.trans own)
    exact before

theorem Linked.outer_lt (linked : t.Linked) {s o : Nat} (h : t.outer? s = some o) : o < s := by
  obtain ⟨l, found, own⟩ := Option.bind_eq_some_iff.mp h
  rw [linked.determined s l found] at own
  replace own : (if l.kind.isVariableScope then l.parent.map t.nearestVariableScope else none) =
    some o := own
  split at own
  · obtain ⟨p, parent, rfl⟩ := Option.map_eq_some_iff.mp own
    have before := linked.ordered s p (by rw [parent?_eq_links?, found]; exact parent)
    exact Nat.lt_of_le_of_lt (nearest_le linked.ordered _ p) before
  · cases own

theorem lt_size_of_links? {l : Scope.Links} (h : t.links? s = some l) : s < t.scopes.size := by
  obtain ⟨scope, found, -⟩ := Option.map_eq_some_iff.mp h
  exact lt_size_of_scope? found

theorem lt_size_of_link? {link : Scope.Links → Option ScopeId} {p : ScopeId}
    (h : (t.links? s).bind link = some p) : s < t.scopes.size := by
  obtain ⟨l, found, -⟩ := Option.bind_eq_some_iff.mp h
  exact lt_size_of_links? found

theorem linkedTo_spec {link? : ScopeId → Option ScopeId}
    (inside : ∀ c p, link? c = some p → c < t.scopes.size) (s : ScopeId) :
    (t.linkedTo link? s).Nodup ∧ ∀ c, c ∈ t.linkedTo link? s ↔ link? c = some s := by
  refine ⟨List.nodup_range.filter _, fun c => ?_⟩
  simpa [linkedTo] using inside c s

/-! ## Steps that leave the links as they are -/

theorem size_of_links? (same : u.links? = t.links?) : u.scopes.size ≤ t.scopes.size := by
  by_contra more
  obtain ⟨scope, found⟩ := exists_scope? (Nat.not_le.mp more)
  have links : t.links? t.scopes.size = some scope.links := by rw [← same, links?, found]; rfl
  exact Nat.lt_irrefl _ (lt_size_of_links? links)

theorem Linked.of_links? (linked : t.Linked) (same : u.links? = t.links?) : u.Linked := by
  have parents : u.parent? = t.parent? := by
    funext s
    rw [parent?_eq_links?, parent?_eq_links?, same]
  have kinds (p : ScopeKind → Bool) : u.kindIs p = t.kindIs p := by
    funext s
    rw [kindIs_eq_links?, kindIs_eq_links?, same]
  have nearest : u.nearestVariableScope = t.nearestVariableScope := nearest_congr parents (kinds _)
  have outer : u.outer? = t.outer? := by
    unfold outer?
    rw [same]
  have size := Nat.le_antisymm (size_of_links? same) (size_of_links? same.symm)
  have links : u.linksOf = t.linksOf := by
    unfold linksOf linkedTo outerVariableScope?
    rw [parents, outer, nearest, size]
  refine ⟨⟨?_, parents ▸ linked.root.2⟩, same ▸ linked.below, ?_⟩
  · rw [isTop, kinds]
    exact linked.root.1
  · rw [same, links]
    exact linked.determined

theorem links?_modifyScope {f : Scope → Scope} {g : Scope.Links → Scope.Links}
    (h : ∀ scope, (f scope).links = g scope.links) (t : ScopeTree) (id s : ScopeId) :
    (t.modifyScope id f).links? s = if id = s then (t.links? s).map g else t.links? s := by
  unfold links?
  rw [scope?_modifyScope]
  split
  · cases t.scope? s <;> simp [h]
  · rfl

theorem links?_modifyScope_same {f : Scope → Scope} (h : ∀ scope, (f scope).links = scope.links)
    (t : ScopeTree) (id : ScopeId) : (t.modifyScope id f).links? = t.links? := by
  funext s
  rw [links?_modifyScope (g := fun l => l) h]
  simp

theorem links?_modifyVariableScope {f : VariableScope → VariableScope}
    (parent : ∀ data, (f data).parent = data.parent)
    (children : ∀ data, (f data).children = data.children) (t : ScopeTree) (id : ScopeId) :
    (t.modifyVariableScope id f).links? = t.links? := by
  refine links?_modifyScope_same (fun scope => ?_) t id
  cases own : scope.variableScope <;> simp [Scope.links, own, parent, children]

theorem links?_setName (t : ScopeTree) (id : ScopeId) (name : String) (v : VariableId) :
    (t.setName id name v).links? = t.links? := by
  apply links?_modifyScope_same
  exact fun _ => rfl

theorem links?_addHere (t : ScopeTree) (id : ScopeId) (scopeKind : ScopeKind) (name : String)
    (kind : VarKind) (role : ModuleRole) :
    (t.addHere id scopeKind name kind role).2.links? = t.links? := by
  unfold addHere
  split
  · rfl
  · exact links?_setName _ id name _

theorem add_eq_addHere (t : ScopeTree) (id : ScopeId) (name : String) (kind : VarKind)
    (role : ModuleRole) :
    ∃ id' scopeKind role', t.add id name kind role = t.addHere id' scopeKind name kind role' := by
  unfold add
  dsimp only
  cases ((t.scope? id).map Scope.kind).getD .global with
  | global | esModule => exact ⟨_, _, _, rfl⟩
  | function =>
    dsimp only
    split <;> exact ⟨_, _, _, rfl⟩
  | block | loop =>
    dsimp only
    split
    · exact ⟨_, _, _, rfl⟩
    · split <;> exact ⟨_, _, _, rfl⟩

theorem links?_addParameter (t : ScopeTree) (id : ScopeId) (name : String) (kind : VarKind)
    (isImplicit isVisible : Bool) :
    (t.addParameter id name kind isImplicit isVisible).2.links? = t.links? := by
  cases isVisible with
  | false => exact links?_modifyVariableScope (by exact fun _ => rfl) (by exact fun _ => rfl) _ id
  | true =>
    refine (links?_modifyVariableScope (by exact fun _ => rfl) (by exact fun _ => rfl) _ id).trans ?_
    exact links?_setName _ id name _

/-! ## A new scope -/

theorem links?_addScope (inside : parent < t.scopes.size) (kind : ScopeKind) (node : NodeId)
    (s : ScopeId) :
    (t.addScope kind node (some parent)).links? s =
      if s = t.scopes.size then some (t.freshScope kind node (some parent)).links
      else (t.links? s).map fun l =>
        l.adopt t.scopes.size (parent = s) (t.outerVariableScope? kind (some parent) = some s) := by
  let inner : ScopeTree := (t.outerVariableScope? kind (some parent)).elim t fun outer =>
    t.modifyVariableScope outer fun data =>
      { data with children := data.children ++ [t.scopes.size] }
  have size : inner.scopes.size = t.scopes.size := by
    unfold inner
    cases t.outerVariableScope? kind (some parent) <;> simp [modifyVariableScope, modifyScope]
  have links : inner.links? s = (t.links? s).map fun l =>
      l.adopt t.scopes.size False (t.outerVariableScope? kind (some parent) = some s) := by
    unfold inner
    cases t.outerVariableScope? kind (some parent) with
    | none => simp [Scope.Links.adopt]
    | some outer =>
      rw [Option.elim_some, modifyVariableScope,
        links?_modifyScope (g := fun l => l.adopt t.scopes.size False True)]
      · by_cases here : outer = s <;> simp [here, Scope.Links.adopt]
      · intro scope
        cases data : scope.variableScope <;> simp [Scope.links, Scope.Links.adopt, data]
  have pushed : ScopeTree.links? { inner with
      scopes := inner.scopes.push (t.freshScope kind node (some parent)) } s =
      if s = t.scopes.size then some (t.freshScope kind node (some parent)).links
      else inner.links? s := by
    rw [links?, scope?, Array.getElem?_push, size]
    split <;> rfl
  have step : (t.addScope kind node (some parent)).links? s =
      (modifyScope { inner with scopes := inner.scopes.push (t.freshScope kind node (some parent)) }
        parent fun scope => { scope with children := scope.children ++ [t.scopes.size] }).links? s := by
    unfold inner addScope
    cases t.outerVariableScope? kind (some parent) <;> rfl
  rw [step, links?_modifyScope (g := fun l => l.adopt t.scopes.size True False), pushed, links]
  · by_cases new : s = t.scopes.size
    · simp [new, Nat.ne_of_lt inside]
    · by_cases here : parent = s <;> simp [new, here, Scope.Links.adopt, Function.comp_def]
  · simp [Scope.links, Scope.Links.adopt, Function.comp_def]

theorem linkedTo_addScope (t : ScopeTree) (kind : ScopeKind) (node : NodeId) (parent : ScopeId)
    (link? : ScopeId → Option ScopeId) (link : Option ScopeId) (s : ScopeId) :
    (t.addScope kind node (some parent)).linkedTo
        (fun c => if c = t.scopes.size then link else link? c) s =
      t.linkedTo link? s ++ if link = some s then [t.scopes.size] else [] := by
  have old : (List.range t.scopes.size).filter (fun c =>
      (if c = t.scopes.size then link else link? c) = some s) = t.linkedTo link? s := by
    refine List.filter_congr fun c mem => ?_
    rw [if_neg (Nat.ne_of_lt (List.mem_range.mp mem))]
  rw [linkedTo, size_addScope, List.range_succ, List.filter_append, old]
  by_cases own : link = some s <;> simp [own]

/-- Nothing is linked to a scope before it is there. -/
theorem linkedTo_size {link? : ScopeId → Option ScopeId}
    (before : ∀ c p : Nat, link? c = some p → p < c) : t.linkedTo link? t.scopes.size = [] := by
  refine List.filter_eq_nil_iff.mpr fun c mem own => ?_
  exact Nat.lt_asymm (List.mem_range.mp mem) (before c _ (of_decide_eq_true own))

theorem Linked.addScope (linked : t.Linked) (inside : parent < t.scopes.size) (kind : ScopeKind)
    (node : NodeId) : (t.addScope kind node (some parent)).Linked := by
  have view := links?_addScope inside kind node
  have parents : (t.addScope kind node (some parent)).parent? =
      fun c => if c = t.scopes.size then some parent else t.parent? c := by
    funext c
    rw [parent?_eq_links?, view, parent?_eq_links?]
    split
    · rfl
    · cases t.links? c <;> rfl
  have outers : (t.addScope kind node (some parent)).outer? =
      fun c => if c = t.scopes.size then t.outerVariableScope? kind (some parent)
        else t.outer? c := by
    funext c
    rw [outer?, view, outer?]
    split
    · cases kind <;> rfl
    · cases t.links? c <;> rfl
  have outer_ne : t.outerVariableScope? kind (some parent) ≠ some t.scopes.size := by
    have le := nearest_le linked.ordered t.isVariableScope parent
    have lt : t.nearestVariableScope parent < t.scopes.size := Nat.lt_of_le_of_lt le inside
    unfold outerVariableScope?
    split
    · simpa using Nat.ne_of_lt lt
    · nofun
  have ordered : (t.addScope kind node (some parent)).Ordered := by
    intro s p own
    rw [parents] at own
    dsimp only at own
    split at own
    · cases own
      exact ‹s = _› ▸ inside
    · exact linked.ordered s p own
  have within := within_addScope t kind node parent
  have nearest : ∀ {s : Nat}, s < t.scopes.size →
      (t.addScope kind node (some parent)).nearestVariableScope s = t.nearestVariableScope s :=
    within.nearestVariableScope linked.ordered ordered
  have root := lt_size_of_kindIs linked.root.1
  -- A scope of the new tree is the new one, or an old one that may have got a child.
  have back : ∀ {s l}, (t.addScope kind node (some parent)).links? s = some l →
      (s = t.scopes.size ∧ l = (t.freshScope kind node (some parent)).links) ∨
        ∃ old, t.links? s = some old ∧ l = old.adopt t.scopes.size (parent = s)
          (t.outerVariableScope? kind (some parent) = some s) := by
    intro s l found
    rw [view] at found
    split at found
    · exact .inl ⟨‹_›, (Option.some.inj found).symm⟩
    · obtain ⟨old, before, rfl⟩ := Option.map_eq_some_iff.mp found
      exact .inr ⟨old, before, rfl⟩
  refine ⟨⟨(within.kindIs root _).trans linked.root.1, ?_⟩, fun s l found other => ?_,
    fun s l found => ?_⟩
  · rw [parents]
    exact (if_neg (Nat.ne_of_lt root)).trans linked.root.2
  · rcases back found with ⟨rfl, rfl⟩ | ⟨old, before, rfl⟩
    · exact ⟨parent, rfl, inside⟩
    · exact linked.below s old before other
  · unfold linksOf
    rw [parents, outers, linkedTo_addScope, linkedTo_addScope]
    rcases back found with ⟨rfl, rfl⟩ | ⟨old, before, rfl⟩
    · rw [linkedTo_size linked.ordered, linkedTo_size fun _ _ => linked.outer_lt, if_neg outer_ne]
      cases kind <;> simp [freshScope, Scope.links, outerVariableScope?, ScopeKind.isVariableScope,
        ScopeKind.isLexical, nearest inside, Nat.ne_of_lt inside]
    · obtain ⟨kind', parent', children, hasEnv, around, inner⟩ := old
      have outer : (t.addScope kind node (some parent)).outerVariableScope? kind' parent' =
          t.outerVariableScope? kind' parent' := by
        cases parent' with
        | none => rfl
        | some p =>
          have lt := linked.ordered s p (by rw [parent?_eq_links?, before]; rfl)
          simp [outerVariableScope?, nearest (Nat.lt_trans lt (lt_size_of_links? before))]
      have known : _ = t.linksOf s kind' parent' := linked.determined s _ before
      cases known
      simp only [Scope.Links.adopt, outer, Scope.Links.mk.injEq, Option.some.injEq, true_and]
      refine ⟨?_, ?_⟩
      · split <;> simp
      · cases kind'.isVariableScope <;> simp
        split <;> simp

/-! ## Names -/

/-- The names of a scope stand for variables of this scope that have these names. -/
def Named (t : ScopeTree) : Prop :=
  ∀ s scope, t.scope? s = some scope → ∀ entry ∈ scope.names,
    ∃ data, t.var? entry.2 = some data ∧ data.name = entry.1 ∧ data.scope = s

theorem Named.modifyScope (named : t.Named) {f : Scope → Scope}
    (h : ∀ scope, (f scope).names = scope.names) (id : ScopeId) : (t.modifyScope id f).Named := by
  intro s scope' found entry mem
  rw [scope?_modifyScope] at found
  split at found
  · obtain ⟨scope, before, rfl⟩ := Option.map_eq_some_iff.mp found
    exact named s scope before entry (h scope ▸ mem)
  · exact named s scope' found entry mem

theorem Named.pushVariable (named : t.Named) (data : Variable) :
    (t.pushVariable data).2.Named := by
  intro s scope found entry mem
  obtain ⟨old, present, known⟩ := named s scope found entry mem
  exact ⟨old, var?_pushVariable_of_some data present, known⟩

theorem Named.setName (named : t.Named) {v : VariableId} {data : Variable}
    (present : t.var? v = some data) (same : data.name = name) (home : data.scope = s) :
    (t.setName s name v).Named := by
  intro r scope' found entry mem
  rw [ScopeTree.setName, scope?_modifyScope] at found
  split at found
  · rename_i here
    obtain ⟨scope, before, rfl⟩ := Option.map_eq_some_iff.mp found
    rcases OrderedMap.mem_insert mem with rfl | mem
    · exact ⟨data, present, same, home.trans here⟩
    · exact named r scope before entry mem
  · exact named r scope' found entry mem

theorem Named.addHere (named : t.Named) (id : ScopeId) (scopeKind : ScopeKind) (name : String)
    (kind : VarKind) (role : ModuleRole) : (t.addHere id scopeKind name kind role).2.Named := by
  unfold ScopeTree.addHere
  split
  · exact named
  · exact (named.pushVariable _).setName ((var?_pushVariable ..).trans (if_pos rfl)) rfl rfl

theorem Named.addParameter (named : t.Named) (id : ScopeId) (name : String) (kind : VarKind)
    (isImplicit isVisible : Bool) : (t.addParameter id name kind isImplicit isVisible).2.Named := by
  have pushed := named.pushVariable
    { name, kind, storage := .local, scope := id, startsInitialized := true, isImplicit
      isParameter := true }
  cases isVisible with
  | false => exact pushed.modifyScope (by exact fun _ => rfl) id
  | true =>
    have set := pushed.setName ((var?_pushVariable ..).trans (if_pos rfl)) rfl rfl
    exact set.modifyScope (by exact fun _ => rfl) id

theorem Named.addScope (named : t.Named) (kind : ScopeKind) (node : NodeId) (parent : ScopeId) :
    (t.addScope kind node (some parent)).Named := by
  intro s scope' found entry mem
  have vars : (t.addScope kind node (some parent)).var? = t.var? := by
    unfold ScopeTree.addScope
    cases t.outerVariableScope? kind (some parent) <;> rfl
  rw [vars]
  rcases addScope_back found with ⟨-, alike⟩ | ⟨scope, before, alike⟩
  · rw [alike.names] at mem
    cases mem
  · exact named s scope before entry (alike.names ▸ mem)

/-! ## Trees that are built step by step -/

theorem linked_ofRoot {kind : ScopeKind} {node : NodeId} (h : ofRoot? kind node = some t) :
    t.Linked ∧ t.Named := by
  have root : t.isTop rootId = true ∧ t.parent? rootId = none := by
    cases kind <;> cases h <;> exact ⟨rfl, rfl⟩
  have only : ∀ {s scope}, t.scope? s = some scope →
      s = rootId ∧ scope.names = [] ∧ scope.links = t.linksOf s scope.kind scope.parent := by
    intro s scope found
    cases s <;> cases kind <;> cases h <;> cases found <;> exact ⟨rfl, rfl, rfl⟩
  refine ⟨⟨root, fun s l found other => ?_, fun s l found => ?_⟩, fun s scope found entry mem => ?_⟩
  · obtain ⟨scope, before, -⟩ := Option.map_eq_some_iff.mp found
    exact absurd (only before).1 other
  · obtain ⟨scope, before, rfl⟩ := Option.map_eq_some_iff.mp found
    exact (only before).2.2
  · rw [(only found).2.1] at mem
    cases mem

theorem Built.linked (built : t.Built) : t.Linked ∧ t.Named := by
  induction built with
  | root h => exact linked_ofRoot h
  | scope kind node _ inside ih =>
    exact ⟨ih.1.addScope inside kind node, ih.2.addScope kind node _⟩
  | «variable» name kind role _ _ ih =>
    rename_i t s _ _
    obtain ⟨id, scopeKind, role', same⟩ := add_eq_addHere t s name kind role
    rw [same]
    exact ⟨ih.1.of_links? (links?_addHere ..), ih.2.addHere id scopeKind name kind role'⟩
  | decl decl _ _ ih =>
    exact ⟨ih.1.of_links? (links?_modifyScope_same (by exact fun _ => rfl) _ _),
      ih.2.modifyScope (by exact fun _ => rfl) _⟩
  | parameter name kind isImplicit isVisible _ _ ih =>
    exact ⟨ih.1.of_links? (links?_addParameter ..), ih.2.addParameter _ name kind isImplicit isVisible⟩
  | hoisted decl _ _ ih =>
    exact ⟨ih.1.of_links? (links?_modifyVariableScope (by exact fun _ => rfl) (by exact fun _ => rfl) _ _),
      ih.2.modifyScope (by exact fun _ => rfl) _⟩

/-- The walk from a scope goes from parent to parent and ends at the root. -/
theorem Linked.ancestors (linked : t.Linked) {s : Nat} (inside : s < t.scopes.size) :
    (t.ancestors s).IsChain (fun c p => t.parent? c = some p) ∧
      (t.ancestors s).getLast? = some rootId := by
  induction s using ancestry_induction linked.ordered with
  | root s none =>
    rw [ancestors_of_root none]
    refine ⟨.singleton s, ?_⟩
    by_contra other
    obtain ⟨scope, found⟩ := exists_scope? inside
    have links : t.links? s = some scope.links := by rw [links?, found]; rfl
    obtain ⟨p, parent, -⟩ := linked.below s scope.links links (by simpa using other)
    rw [parent?_eq_links?, links] at none
    exact Option.some_ne_none p (parent.symm.trans none)
  | step s p some ih =>
    obtain ⟨chain, last⟩ := ih (Nat.lt_trans (linked.ordered s p some) inside)
    rw [ancestors_of_parent linked.ordered some]
    refine ⟨?_, by rw [List.getLast?_cons, last]; rfl⟩
    rw [ScopeTree.ancestors, ancestorsWithin_succ] at chain ⊢
    exact List.isChain_cons_cons.mpr ⟨some, chain⟩

/-- The nearest variable scope is found on the way to the root. -/
theorem Linked.find?_isVariableScope (linked : t.Linked) {s : Nat} (inside : s < t.scopes.size) :
    (t.ancestors s).find? t.isVariableScope = some (t.nearestVariableScope s) := by
  have last := List.mem_of_getLast? (linked.ancestors inside).2
  have root : t.isVariableScope rootId = true := by
    have top := linked.root.1
    unfold isTop isVariableScope kindIs at *
    split at top
    · rename_i scope _
      cases kind : scope.kind <;> simp_all [ScopeKind.isVariableScope]
    · cases top
  obtain ⟨r, found⟩ := Option.isSome_iff_exists.mp (List.find?_isSome.mpr ⟨rootId, last, root⟩)
  rw [nearestVariableScope, nearest, found]
  rfl

theorem outer?_eq_variableScope? (t : ScopeTree) (s : ScopeId) :
    t.outer? s = (t.variableScope? s).bind VariableScope.parent := by
  unfold outer? links? variableScope?
  cases t.scope? s <;> rfl

/-- In a tree that is built step by step, parents stand before their children and the walk upward
ends at the root; the children of a scope are the scopes that have it as their parent, each listed
once; a variable scope is linked to the nearest variable scope around it, and back; exactly lexical
scopes have an environment; and names stand for variables of their scope that have these names. -/
theorem consistent_of_built (built : t.Built) {s : Nat} {scope : Scope}
    (found : t.scope? s = some scope) :
    (s ≠ rootId → ∃ p : Nat, scope.parent = some p ∧ p < s) ∧
      (t.ancestors s).IsChain (fun c p => t.parent? c = some p) ∧
      (t.ancestors s).getLast? = some rootId ∧
      (scope.children.Nodup ∧ ∀ c, c ∈ scope.children ↔ t.parent? c = some s) ∧
      scope.variableScope.isSome = scope.kind.isVariableScope ∧
      (∀ data, scope.variableScope = some data →
        data.parent = scope.parent.bind (fun p => (t.ancestors p).find? t.isVariableScope) ∧
        data.children.Nodup ∧
        ∀ c, c ∈ data.children ↔ (t.variableScope? c).bind VariableScope.parent = some s) ∧
      scope.env.isSome = scope.kind.isLexical ∧
      ∀ entry ∈ scope.names,
        ∃ data, t.var? entry.2 = some data ∧ data.name = entry.1 ∧ data.scope = s := by
  obtain ⟨linked, named⟩ := built.linked
  have inside := lt_size_of_scope? found
  have links : t.links? s = some scope.links := by rw [links?, found]; rfl
  have known := linked.determined s _ links
  have isVariable : scope.variableScope.isSome = scope.kind.isVariableScope := by
    have own := congrArg (Option.isSome ·.inner) known
    cases isVariable : scope.kind.isVariableScope <;> simpa [Scope.links, linksOf, isVariable] using own
  obtain ⟨chain, last⟩ := linked.ancestors inside
  refine ⟨linked.below s _ links, chain, last, ?_, isVariable, fun data own => ⟨?_, ?_⟩,
    congrArg Scope.Links.hasEnv known, named s scope found⟩
  · rw [show scope.children = t.linkedTo t.parent? s from congrArg Scope.Links.children known]
    exact linkedTo_spec (fun c p own => lt_size_of_link? (parent?_eq_links? t c ▸ own)) s
  · have outer : data.parent = scope.parent.map t.nearestVariableScope := by
      have outer := congrArg Scope.Links.outer known
      simpa [Scope.links, linksOf, outerVariableScope?, own, ← isVariable] using outer
    cases parent : scope.parent with
    | none => rw [outer, parent]; rfl
    | some p =>
      have before := linked.ordered s p (by rw [parent?, found]; exact parent)
      rw [outer, parent]
      exact (linked.find?_isVariableScope (Nat.lt_trans before inside)).symm
  · have inner : data.children = t.linkedTo t.outer? s := by
      have inner := congrArg Scope.Links.inner known
      simpa [Scope.links, linksOf, own, ← isVariable] using inner
    simp only [← outer?_eq_variableScope?, inner]
    exact linkedTo_spec (fun c p own => lt_size_of_link? own) s

theorem consistent_of_built_nested :
    let t := (((((ofRoot .global 0).addScope .function 1 (some 0)).addScope .block 2
      (some 1)).addScope .function 3 (some 2)).add 2 "x" .var .notModule).2
    t.Built ∧ ∃ scope, t.scope? 1 = some scope ∧
      ∀ data, scope.variableScope = some data →
        ∀ c, c ∈ data.children ↔ (t.variableScope? c).bind VariableScope.parent = some 1 := by
  intro t
  have built : t.Built :=
    .variable _ _ _ (.scope _ _ (.scope _ _ (.scope _ _ (@Built.root .global 0 _ rfl) (by decide)) (by decide))
      (by decide)) (by decide)
  refine ⟨built, _, rfl, fun data own => ?_⟩
  exact ((consistent_of_built built rfl).2.2.2.2.2.1 data own).2.2

end ScopeTree

end AccScript
