import AccScript.Assembler.Control
import AccScript.Proofs.Text.OrderedMap
import Mathlib.Data.List.Nodup
import Mathlib.Data.List.Perm.Basic

/-!
# Registers

A register has at most one owner: a parameter or variable, a live temporary or the free list.  Two
owners of one register would overwrite each other, and the count of live temporaries alone would
never show it.

`RegisterState.Sound` says so of one moment, `Assembler.Allocates` of all moments up to now.  Each
step of the allocator keeps it.
-/

namespace AccScript

/-! ## One moment -/

namespace RegisterState

/-- The registers of parameters and variables. -/
def bound (s : RegisterState) : List Register :=
  s.locals.map Prod.snd

/-- The registers that something owns. -/
def owned (s : RegisterState) : List Register :=
  s.bound ++ s.live ++ s.free

/-- No register has two owners, and all of them have been given out. -/
structure Sound (s : RegisterState) : Prop where
  nodup : s.owned.Nodup
  below : ∀ r ∈ s.owned, r.index < s.next

variable {s s' : RegisterState}

theorem Sound.of_perm (h : s.Sound) (owned : s'.owned.Perm s.owned) (next : s'.next = s.next) :
    s'.Sound where
  nodup := owned.nodup_iff.mpr h.nodup
  below r mem := next ▸ h.below r (owned.mem_iff.mp mem)

/-- A register that was never given out gets an owner; others may lose theirs. -/
theorem Sound.of_subperm_cons
    (h : s.Sound) (owned : s'.owned.Subperm (⟨s.next⟩ :: s.owned)) (next : s'.next = s.next + 1) :
    s'.Sound where
  nodup := by
    have fresh : (⟨s.next⟩ :: s.owned).Nodup :=
      List.nodup_cons.mpr ⟨fun mem => Nat.lt_irrefl _ (h.below _ mem), h.nodup⟩
    obtain ⟨kept, same, sublist⟩ := owned
    exact same.nodup_iff.mp (fresh.sublist sublist)
  below r mem := by
    rw [next]
    rcases List.mem_cons.mp (owned.subset mem) with rfl | mem
    · exact Nat.lt_succ_self _
    · exact Nat.lt_succ_of_lt (h.below r mem)

theorem Sound.nodup_live (h : s.Sound) : s.live.Nodup :=
  (List.nodup_append.mp (List.nodup_append.mp h.nodup).1).2.1

theorem Sound.bound_disjoint_live (h : s.Sound) : s.bound.Disjoint s.live := by
  intro r bound live
  exact (List.nodup_append.mp (List.nodup_append.mp h.nodup).1).2.2 r bound r live rfl

end RegisterState

/-- A variable that gets a register anew loses the one before. -/
theorem OrderedMap.values_insert_subperm
    {κ α : Type} [DecidableEq κ] (m : OrderedMap κ α) (key : κ) (value : α) :
    ((m.insert key value).map Prod.snd).Subperm (value :: m.map Prod.snd) := by
  induction m with
  | nil => exact List.Subperm.refl _
  | cons entry rest ih =>
    obtain ⟨other, old⟩ := entry
    by_cases same : other = key
    · simp only [OrderedMap.insert, same, if_true, List.map_cons]
      exact ((List.sublist_cons_self old _).cons_cons value).subperm
    · simp only [OrderedMap.insert, same, if_false, List.map_cons]
      exact ((List.subperm_cons old).mpr ih).trans (List.Perm.swap value old _).subperm

theorem OrderedMap.mem_values_of_get?
    {κ α : Type} [DecidableEq κ] {m : OrderedMap κ α} {key : κ} {value : α}
    (found : m.get? key = some value) : value ∈ m.map Prod.snd := by
  induction m with
  | nil => cases found
  | cons entry rest ih =>
    rw [OrderedMap.get?_cons] at found
    split at found
    · cases found
      exact .head _
    · exact .tail _ (ih found)

/-! ## All moments -/

/-- The live temporaries are those of a list, and no register has ever had two owners. -/
structure Assembler.Allocates (a : Assembler) (temps : List Register) : Prop where
  live : a.live.Perm temps
  count : a.liveTemps = a.live.length
  present : a.registers.Sound
  past : ∀ s ∈ a.moments, s.Sound

namespace Assembler.Allocates

variable {a b : Assembler} {temps : List Register} {r : Register} {v : VariableId}

theorem perm {temps' : List Register} (h : a.Allocates temps) (same : temps.Perm temps') :
    a.Allocates temps' :=
  { h with live := h.live.trans same }

theorem congr (h : a.Allocates temps) (registers : b.registers = a.registers)
    (count : b.liveTemps = a.liveTemps) (moments : b.moments = a.moments) : b.Allocates temps := by
  have live : b.live = a.live := congrArg RegisterState.live registers
  exact ⟨live ▸ h.live, by rw [count, live, h.count], registers ▸ h.present, moments ▸ h.past⟩

theorem nodup (h : a.Allocates temps) : temps.Nodup :=
  h.live.nodup_iff.mp h.present.nodup_live

theorem lt_next (h : a.Allocates temps) (mem : r ∈ temps) : r.index < a.nextRegister := by
  have live : r ∈ a.live := h.live.mem_iff.mpr mem
  exact h.present.below r (by simp [RegisterState.owned, registers, live])

theorem local_lt_next (h : a.Allocates temps) (found : a.locals.get? v = some r) :
    r.index < a.nextRegister := by
  have bound : r ∈ a.registers.bound := OrderedMap.mem_values_of_get? found
  exact h.present.below r (by simp [RegisterState.owned, bound])

theorem local_not_mem (h : a.Allocates temps) (found : a.locals.get? v = some r) : r ∉ temps :=
  fun mem => h.present.bound_disjoint_live (OrderedMap.mem_values_of_get? found)
    (h.live.mem_iff.mpr mem)

/-- The present moment becomes part of the history. -/
theorem record (h : a.Allocates temps) :
    Allocates { a with moments := a.registers :: a.moments } temps :=
  ⟨h.live, h.count, h.present, List.forall_mem_cons.mpr ⟨h.present, h.past⟩⟩

/-! ## Steps -/

theorem hold_free {rest : List Register} (h : a.Allocates temps) (free : a.freeTemps = r :: rest) :
    Allocates { a with freeTemps := rest, liveTemps := a.liveTemps + 1, live := r :: a.live }
      (r :: temps) where
  live := h.live.cons r
  count := congrArg (· + 1) h.count
  present := by
    refine h.present.of_perm ?_ rfl
    simp only [RegisterState.owned, registers, free, List.append_assoc]
    exact List.Perm.append_left _ List.perm_middle.symm
  past := h.past

theorem hold_next (h : a.Allocates temps) : Allocates { a with
      nextRegister := a.nextRegister + 1
      liveTemps := a.liveTemps + 1, live := ⟨a.nextRegister⟩ :: a.live }
      (⟨a.nextRegister⟩ :: temps) where
  live := h.live.cons _
  count := congrArg (· + 1) h.count
  present := by
    refine h.present.of_subperm_cons (List.Perm.subperm ?_) rfl
    simp only [RegisterState.owned, registers, List.append_assoc, List.cons_append]
    exact List.perm_middle
  past := h.past

theorem release
    {given rest : List Register} (h : a.Allocates temps) (same : temps.Perm (given ++ rest)) :
    given.length ≤ a.liveTemps ∧ Allocates { a with
      freeTemps := given ++ a.freeTemps
      liveTemps := a.liveTemps - given.length
      live := given.foldl List.erase a.live } rest := by
  have erased : ∀ (given live : List Register), live.Perm (given ++ rest) →
      (given.foldl List.erase live).Perm rest := by
    intro given
    induction given with
    | nil => exact fun _ same => same
    | cons r given ih =>
      intro live same
      refine ih (live.erase r) ?_
      simpa using same.erase r
  have live : (given.foldl List.erase a.live).Perm rest := erased given a.live (h.live.trans same)
  have before : a.live.Perm (given ++ rest) := h.live.trans same
  have length : a.liveTemps = given.length + rest.length := by
    rw [h.count, before.length_eq, List.length_append]
  refine ⟨by omega, live, ?_, ?_, h.past⟩
  · have left : (given.foldl List.erase a.live).length = rest.length := live.length_eq
    show a.liveTemps - given.length = (given.foldl List.erase a.live).length
    omega
  · refine h.present.of_perm ?_ rfl
    simp only [RegisterState.owned, registers, RegisterState.bound, List.append_assoc]
    refine List.Perm.append_left _ ?_
    calc given.foldl List.erase a.live ++ (given ++ a.freeTemps)
      _ |>.Perm (rest ++ (given ++ a.freeTemps)) := live.append_right _
      _ |>.Perm ((given ++ rest) ++ a.freeTemps) := by
        rw [← List.append_assoc]
        exact List.perm_append_comm.append_right _
      _ |>.Perm (a.live ++ a.freeTemps) := before.symm.append_right _

theorem bindNext (h : a.Allocates temps) (v : VariableId) : Allocates { a with
      nextRegister := a.nextRegister + 1
      locals := a.locals.insert v ⟨a.nextRegister⟩ } temps where
  live := h.live
  count := h.count
  present := by
    refine h.present.of_subperm_cons ?_ rfl
    have values := OrderedMap.values_insert_subperm a.locals v ⟨a.nextRegister⟩
    simp only [RegisterState.owned, registers, RegisterState.bound, List.append_assoc]
    exact (List.subperm_append_right (a.live ++ a.freeTemps)).mpr values
  past := h.past

end Assembler.Allocates

end AccScript
