import AccScript.Proofs.Code.Allocation
import AccScript.Proofs.Code.Segments
import Mathlib.Algebra.Group.Nat.Defs

/-!
# The elements of array literals

Elements are stored at a position that is known until the first spread and counted at run time from
there on.  `places_elements` runs the code on a machine that is told what the elements evaluate to:
wherever the count is kept, each value is stored behind all that stands before it.
-/

namespace AccScript

open Asm Lower

variable {V : Type} {G : Guard} {σ : Stage} {env : Env} {array : Register}

/-! ## Positions as numbers -/

theorem Binary64.toInt?_ofNat {n : Nat} (small : n < 2 ^ 53) : (ofNat n).toInt? = some ↑n := by
  by_cases zero : n = 0
  · subst zero
    decide +kernel
  have top : n.log2 ≤ 52 := Nat.lt_succ_iff.mp ((Nat.log2_lt zero).mpr small)
  obtain ⟨d, apart⟩ := Nat.exists_eq_add_of_le' top
  -- The mantissa is `n` moved up until its first bit is the leading one.
  have low : 2 ^ 52 ≤ n * 2 ^ d := by
    calc 2 ^ 52 = 2 ^ n.log2 * 2 ^ d := by rw [apart, Nat.pow_add, Nat.mul_comm]
      _ ≤ _ := Nat.mul_le_mul_right _ (Nat.log2_self_le zero)
  have high : n * 2 ^ d < 2 ^ 53 := by
    calc n * 2 ^ d < 2 ^ (n.log2 + 1) * 2 ^ d :=
          Nat.mul_lt_mul_of_pos_right Nat.lt_log2_self (Nat.two_pow_pos d)
      _ = 2 ^ 53 := by rw [← Nat.pow_add]; congr 1; omega
  have bits : (ofNat n).bits.toNat = (n.log2 + 1023) * 2 ^ 52 + (n * 2 ^ d - 2 ^ 52) := by
    rw [ofNat, if_neg zero]
    simp only [leadingBit, top, if_true, show 52 - n.log2 = d by omega, UInt64.toNat_ofNat']
    exact Nat.mod_eq_of_lt (by simp; omega)
  have magnitude : (ofNat n).magnitude = .finite (n * 2 ^ d) (.negOfNat d) := by
    simp only [Binary64.magnitude, exponentField, fractionField, bits, leadingBit]
    show _ = Magnitude.finite _ (-(d : Int))
    rw [if_neg (by omega), if_neg (by omega), Magnitude.finite.injEq]
    omega
  have sign : (ofNat n).isNegative = false := by simp [isNegative, signBit, bits]; omega
  cases d <;> simp [toInt?, natAbs?, magnitude, sign, Int.negOfNat,
    Nat.mul_div_cancel n (Nat.two_pow_pos _)]

/-- The number that an instruction loads. -/
def Instruction.number? : Instruction → Option Nat
  | .ldai n => some n.toNat
  | .fldai x => x.toInt?.map Int.toNat
  | _ => none

/-! ## The machine -/

/-- The values that array code tells apart. -/
inductive ArrayValue (V : Type) where
  | array
  | number (n : Nat)
  | other (value : V)

/-- An array in the making; `evaluated` are the elements whose code has run. -/
structure ArrayMachine (V : Type) where
  accumulator : ArrayValue V
  registers : Register → ArrayValue V
  cells : Nat → Option V
  length : Option Nat
  evaluated : List Code

/-- What elements evaluate to, one after the other, the items of spread values, and what else the
code of elements leaves in registers. -/
structure ArrayCourse (V : Type) where
  value : Nat → V
  items : V → List V
  leaves : Nat → Register → ArrayValue V

/-- Stores values at consecutive indices of an array. -/
@[simp]
def ArrayMachine.store (s : ArrayMachine V) (after : Nat → ArrayValue V) (values : List V) :
    ArrayValue V → ArrayValue V → Option (ArrayMachine V)
  | .array, .number k => some { s with
      cells := fun i => if i < k then s.cells i else values[i - k]?.or (s.cells i)
      accumulator := after k }
  | _, _ => none

namespace ArrayCourse

def step (c : ArrayCourse V) (names : StringId → Option String) (s : ArrayMachine V) :
    Segment (id : Code → Code) → Option (ArrayMachine V)
  | .inr part => some { s with
      accumulator := .other (c.value s.evaluated.length)
      registers := fun r =>
        if r ∈ part.written then c.leaves s.evaluated.length r else s.registers r
      evaluated := s.evaluated ++ [part.of] }
  | .inl i =>
      match i, s.accumulator with
      | .createEmptyArray, _ =>
          some { s with accumulator := .array, cells := fun _ => none, length := none }
      | .lda r, _ => some { s with accumulator := s.registers r }
      | .sta r, v => some { s with registers := fun q => if q = r then v else s.registers q }
      | .unary .inc, .number n => some { s with accumulator := .number (n + 1) }
      | .stOwnByIndex r k, .other v => s.store (fun _ => .other v) [v] (s.registers r) (.number k)
      | .stOwnByValue r q, .other v =>
          s.store (fun _ => .other v) [v] (s.registers r) (s.registers q)
      | .stArraySpread r q, .other v =>
          s.store (fun k => .number (k + (c.items v).length)) (c.items v) (s.registers r)
            (s.registers q)
      | .stObjByName name r, .number n =>
          match s.registers r, names name with
          | .array, some "length" => some { s with length := some n }
          | _, _ => none
      | i, _ => i.number?.map fun n => { s with accumulator := .number n }

@[simp]
def run (c : ArrayCourse V) (names : StringId → Option String) (s : ArrayMachine V)
    (pieces : List (Segment (id : Code → Code))) : Option (ArrayMachine V) :=
  pieces.foldlM (c.step names) s

/-- What the language puts into an array, of which `k` elements have been evaluated. -/
@[simp]
def layout (c : ArrayCourse V) (k : Nat) : List ArrayItem → List (Option V)
  | [] => []
  | .hole :: rest => none :: c.layout k rest
  | .value _ :: rest => some (c.value k) :: c.layout (k + 1) rest
  | .spread _ :: rest => (c.items (c.value k)).map some ++ c.layout (k + 1) rest

end ArrayCourse

theorem exists_loadNat {n : Nat} (small : n < 2 ^ 53) : ∃ i, loadNat n = emit i ∧
    ∀ {V : Type} (c : ArrayCourse V) (names : StringId → Option String) (s : ArrayMachine V),
      c.step names s (.inl i) = some { s with accumulator := .number n } := by
  have value := Binary64.toInt?_ofNat small
  rw [loadNat, loadNumber]
  split
  · rename_i k fits
    obtain ⟨-, rfl⟩ : _ ∧ (n : Int) = k := by simpa [Binary64.toInt32?, value] using fits
    exact ⟨_, rfl, by simp [ArrayCourse.step, Instruction.number?]⟩
  · exact ⟨_, rfl, by simp [ArrayCourse.step, Instruction.number?, value]⟩

@[simp]
def ArrayItem.code? (env : Env) : ArrayItem → Option Code
  | .hole => none
  | .value code | .spread code => some (code env)

/-! ## Storing items -/

/-- The first items are in their places, and the next index is where code looks for it. -/
structure ArrayMachine.Holds (s : ArrayMachine V) (array : Register) (position : Nat)
    (next : Option Register) (items : List (Option V)) : Prop where
  array : s.registers array = .array
  cells : s.cells = fun i => items[i]?.join
  known : next = none → items.length = position
  counted : ∀ r, next = some r → s.registers r = .number items.length

/-- Pieces store items in their places, each evaluated once. -/
def Stores (env : Env) (array : Register) (position : Nat) (next : Option Register)
    (items : List ArrayItem) (next' : Option Register) (pieces : List (Segment (id : Code → Code))) :
    Prop :=
  ∀ (V : Type) (c : ArrayCourse V) (names : StringId → Option String) (s : ArrayMachine V)
    (done : List (Option V)), s.Holds array position next done →
    ∃ t, c.run names s pieces = some t ∧
      t.Holds array (position + items.length) next' (done ++ c.layout s.evaluated.length items) ∧
      t.evaluated = s.evaluated ++ items.filterMap (·.code? env) ∧ t.length = s.length

theorem ArrayCourse.layout_append (c : ArrayCourse V) (env : Env) (k : Nat) (items others) :
    c.layout k (items ++ others) = c.layout k items ++
      c.layout (k + (items.filterMap (·.code? env)).length) others := by
  induction items generalizing k with
  | nil => rfl
  | cons item rest ih =>
    cases item <;> simp [ih, Nat.add_assoc, Nat.add_comm 1]

theorem Stores.append {position : Nat} {next next' next'' : Option Register}
    {l l' : List ArrayItem} {p q : List (Segment id)}
    (first : Stores env array position next l next' p)
    (second : Stores env array (position + l.length) next' l' next'' q) :
    Stores env array position next (l ++ l') next'' (p ++ q) := by
  intro V c names s done holds
  obtain ⟨t, run, mid, evaluated, length⟩ := first V c names s done holds
  obtain ⟨u, run', last, evaluated', length'⟩ := second V c names t _ mid
  refine ⟨u, ?_, ?_, by simp [evaluated', evaluated], length'.trans length⟩
  · rw [ArrayCourse.run, List.foldlM_append, ← ArrayCourse.run, run]
    exact run'
  · rw [c.layout_append env, ← List.append_assoc, List.length_append, ← Nat.add_assoc,
      ← List.length_append, ← evaluated]
    exact last

namespace ArrayMachine.Holds

variable {s : ArrayMachine V} {position : Nat} {next : Option Register} {done : List (Option V)}

theorem stored (h : s.Holds array position next done) (values : List V) :
    (fun i => if i < done.length then s.cells i else values[i - done.length]?.or (s.cells i)) =
      fun i => (done ++ values.map some)[i]?.join := by
  funext i
  rw [h.cells, List.getElem?_append]
  split
  · rfl
  · have outside : done[i]? = none := List.getElem?_eq_none (by omega)
    cases found : values[i - done.length]? <;> simp [outside, found]

theorem skipped (h : s.Holds array position next done) :
    s.cells = fun i => (done ++ [none])[i]?.join := by
  funext i
  rw [h.cells, List.getElem?_append]
  split
  · rfl
  · have outside : done[i]? = none := List.getElem?_eq_none (by omega)
    cases i - done.length <;> simp [outside]

end ArrayMachine.Holds

theorem flows_increment {r : Register} (own : r ∈ σ.temps) :
    Flows G σ (increment r) fun _ => σ :=
  (flows_lda own).seq <| (neutral_unary _).seq <| flows_sta own

theorem puts_increment {r : Register} (own : r ∈ σ.temps) : Puts (id : Code → Code) G σ (increment r)
    (fun _ => σ) fun _ => [.lda r, .unary .inc, .sta r] := by
  refine puts_of_run (flows_increment own) ?_
  rintro a x b ⟨⟩
  simp [Assembler.instructions]

/-- The index is taken out of the code when the first spread comes. -/
theorem makes_indexRegister (env : Env) {position : Nat} (small : position < 2 ^ 53) (own : array ∈ σ.temps)
    (next : Option Register) : Makes G (σ.hold next.toList) (indexRegister position next)
      (fun index => σ.hold [index]) fun index => Stores env array position next [] (some index) := by
  cases next with
  | some index =>
    refine .pure (υ := fun index => σ.hold [index]) fun V c names s done holds => ⟨s, rfl, ?_⟩
    simpa using holds
  | none =>
    obtain ⟨i, load, loads⟩ := exists_loadNat small
    rw [indexRegister, load]
    refine puts_getTemp.bind fun index => .given (fun a sound => sound.not_mem_of_hold) fun apart =>
      (puts_emit ?_).bind fun _ => (puts_emit (flows_sta (by simp))).bind fun _ =>
      .pure (υ := fun index => σ.hold [index]) fun V c names s done holds => ?_
    · exact load ▸ neutral_loadNat position G _
    obtain rfl := holds.known rfl
    have apart : array ≠ index := fun same => apart (same ▸ own)
    simp [loads]
    simp [ArrayCourse.step]
    exact ⟨by simp [apart, holds.array], holds.cells, nofun, by rintro _ ⟨⟩; simp⟩

/-- The code of an item gives back what it takes. -/
def ArrayItem.IsNeutral (env : Env) : ArrayItem → Prop
  | .hole => True
  | .value code | .spread code => Neutral (code env)

theorem Expr.lowerElements_neutral (fields : Neutral env.fieldInit) (es : List (Option Expr)) :
    ∀ item ∈ Expr.lowerElements es, item.IsNeutral env := by
  have all := @Expr.items_lowerElements flowing env es
    (Expr.surveyed_blank env.scope ⟨⟨0, 0⟩, .array es⟩)
  generalize Expr.lowerElements es = items,
    Expr.lowerElements (Expr.bareElements es) = items' at all
  induction all with
  | nil => nofun
  | cons first _ ih =>
    refine List.forall_mem_cons.mpr ⟨?_, ih⟩
    cases first with
    | hole => trivial
    | value h => exact fun G σ => h σ fields G
    | spread h => exact fun G σ => h σ fields G

theorem makes_storeItems {items : List ArrayItem} (own : array ∈ σ.temps)
    (h : ∀ item ∈ items, item.IsNeutral env) (position : Nat) (small : position + items.length < 2 ^ 53)
    (next : Option Register) : Makes G (σ.hold next.toList) (storeItems array position next items env)
      (fun next : Option Register => σ.hold next.toList)
      (Stores env array position next items) := by
  induction items generalizing position next with
  | nil =>
    refine .pure (υ := fun next : Option Register => σ.hold next.toList) fun V c names s done holds =>
      ⟨s, rfl, ?_⟩
    simpa using holds
  | cons item rest ih =>
    have others := fun next => ih (fun item mem => h item (.tail _ mem)) (position + 1)
      (by rw [List.length_cons] at small; omega) next
    have first := h item (.head _)
    refine .given (F := ∀ r ∈ next, array ≠ r) (fun a sound r held => ?_) fun apart => ?_
    · cases held
      exact fun same => sound.not_mem_of_hold (same ▸ own)
    cases item with
    | hole =>
      cases next with
      | none =>
        refine (others none).imp fun _ ps =>
          Stores.append (l := [_]) (p := []) fun V c names s done holds => ?_
        have length := holds.known rfl
        simpa using
          (⟨holds.array, holds.skipped, by simp [length], nofun⟩ : s.Holds array _ none (done ++ [none]))
      | some index =>
        have apart := apart index rfl
        refine (puts_increment (by simp)).step fun _ => (others (some index)).imp fun _ ps =>
          Stores.append (l := [_]) fun V c names s done holds => ?_
        simp [ArrayCourse.step, holds.counted]
        exact ⟨by simp [apart, holds.array], holds.skipped, nofun, by rintro _ ⟨⟩; simp⟩
    | spread code =>
      refine (makes_indexRegister env (by omega) own next).step fun index ps start => ?_
      refine .given (fun a sound => sound.not_mem_of_hold) fun apart =>
        Makes.follow (makes_inner id first) fun _ qs known => ?_
      obtain ⟨part, same, rfl, spares⟩ := known
      have spared := spares array (by simp [own])
      have spared' := spares index (by simp)
      have apart : array ≠ index := fun same => apart (same ▸ own)
      refine (puts_emit (flows_use [array, index] (by simp [own]) rfl rfl rfl)).step fun _ =>
        (puts_emit (flows_sta (by simp))).step fun _ => (others (some index)).imp fun _ qs rest =>
        start.append (.append (l := [.spread code]) (p := [_, _, _]) (fun V c names s done holds => ?_) rest)
      simp [ArrayCourse.step, spared, spared', holds.array, holds.counted, same]
      exact ⟨by simp [spared, apart, holds.array], holds.stored _, nofun, by rintro _ ⟨⟩; simp⟩
    | value code =>
      refine Makes.follow (makes_inner id first) fun _ ps known => ?_
      obtain ⟨part, same, rfl, spares⟩ := known
      have spared := spares array (by simp [own])
      cases next with
      | none =>
        refine (puts_emit (flows_use [array] (by simp [own]) rfl rfl rfl)).step fun _ => (others none).imp
          fun _ qs => Stores.append (l := [_]) (p := [_, _]) fun V c names s done holds => ?_
        obtain rfl := holds.known rfl
        simp [ArrayCourse.step, spared, holds.array, same]
        exact ⟨by simp [spared, holds.array], holds.stored [_], by simp, nofun⟩
      | some index =>
        have spared' := spares index (by simp)
        have apart := apart index rfl
        refine (puts_emit (flows_use [array, index] (by simp [own]) rfl rfl rfl)).bind fun _ =>
          (puts_increment (by simp)).step fun _ => (others (some index)).imp fun _ qs =>
          Stores.append (l := [_]) (p := [_, _, _, _, _]) fun V c names s done holds => ?_
        simp [ArrayCourse.step, spared, spared', holds.array, holds.counted, same]
        exact ⟨by simp [spared, apart, holds.array], holds.stored [_], nofun, by rintro _ ⟨⟩; simp⟩

/-! ## Whole arrays -/

/-- The number of items is at hand wherever the next index is kept. -/
theorem exists_storeLength (array : Register) {count : Nat} (small : count < 2 ^ 53)
    (next : Option Register) : ∃ i,
    storeLength array count next = emit i >>= (fun _ => storeProperty array (.name "length")) ∧
    ∀ {V : Type} (c : ArrayCourse V) (names : StringId → Option String) (s : ArrayMachine V)
      (done : List (Option V)), s.Holds array count next done →
      c.step names s (.inl i) = some { s with accumulator := .number done.length } := by
  cases next with
  | none =>
    obtain ⟨i, load, loads⟩ := exists_loadNat small
    exact ⟨i, load ▸ rfl, fun c names s done holds => holds.known rfl ▸ loads c names s⟩
  | some index =>
    exact ⟨_, rfl, fun c names s done holds => by simp [ArrayCourse.step, holds.counted]⟩

theorem length_lowerElements (es : List (Option Expr)) : (Expr.lowerElements es).length = es.length := by
  induction es with
  | nil => rfl
  | cons e rest ih => simp [Expr.lowerElements, ih]

/-- The array of items, as `layout` says. -/
theorem places_items {items : List ArrayItem} (h : ∀ item ∈ items, item.IsNeutral env)
    (short : items.length < 2 ^ 53) {a b : Assembler} {temps : List Register}
    (allocated : a.Allocates temps) (run : arrayOf items env a = .ok ((), b)) :
    ∃ pieces : List (Segment id), b.instructions = a.instructions ++ pieces.flatMap Segment.code ∧
      ∀ (V : Type) (c : ArrayCourse V) (s : ArrayMachine V), s.evaluated = [] →
        ∃ t, c.run (fun id => b.strings[id.index]?) s pieces = some t ∧ t.accumulator = .array ∧
          t.cells = (fun i => (c.layout 0 items)[i]?.join) ∧
          t.evaluated = items.filterMap (·.code? env) ∧
          t.length = if items.getLast?.any ArrayItem.isHole then some (c.layout 0 items).length
            else none := by
  obtain ⟨array, a1, taken, start⟩ := allocated.follows_getTemp
  obtain ⟨a2, created, create⟩ := start.allocates.follows_emit .createEmptyArray
  obtain ⟨a3, kept, keep⟩ := create.allocates.follows_emit (.sta array)
  have begun := (start.trans create).trans keep
  rw [arrayOf, Lower.run_bind_of_ok (x := array) taken, Lower.run_bind_of_ok created,
    Lower.run_bind_of_ok kept] at run
  obtain ⟨⟨next, a4⟩, stored, run⟩ := exists_of_bind_eq_ok run
  obtain ⟨sound', pieces, emitted, stores⟩ := makes_storeItems (σ := a3.stage (array :: temps))
    (.head _) h 0 (by simpa using short) none a3 next a4 begun.allocates.sound stored
  have ending {d : Assembler} (h : d.Allocates (next.toList ++ array :: temps)) : ∃ e,
      ((do lda array; freeTemps [array]; freeTemps next.toList : Lower Unit) env) d = .ok ((), e) ∧
      d.Follows e [.lda array] temps := by
    obtain ⟨d1, loaded, load⟩ := h.follows_emit (.lda array)
    obtain ⟨d2, freed, free⟩ := (load.allocates.perm List.perm_middle).follows_freeTemps [array]
    obtain ⟨e, freed', free'⟩ := free.allocates.follows_freeTemps next.toList
    refine ⟨e, ?_, (load.trans free).trans free'⟩
    rw [Lower.run_bind_of_ok loaded, Lower.run_bind_of_ok freed]
    exact freed'
  have allocates : a4.Allocates (next.toList ++ array :: temps) := by simpa using sound'.allocates
  obtain ⟨part, follows, ends⟩ : ∃ part, a4.Follows b part temps ∧
      ∀ (V : Type) (c : ArrayCourse V) (s : ArrayMachine V) (done : List (Option V)),
        s.Holds array items.length next done → s.length = none →
        ∃ t, c.run (fun id => b.strings[id.index]?) s (part.map .inl) = some t ∧
          t.accumulator = .array ∧ t.cells = s.cells ∧ t.evaluated = s.evaluated ∧
          t.length = if items.getLast?.any ArrayItem.isHole then some done.length else none := by
    cases hole : items.getLast?.any ArrayItem.isHole with
    | false =>
      obtain ⟨e, ran, follows⟩ := ending allocates
      rw [hole] at run
      cases ran.symm.trans run
      refine ⟨_, follows, fun V c s done holds unset => ?_⟩
      simp [ArrayCourse.step, holds.array, unset]
    | true =>
      obtain ⟨i, length, loads⟩ := exists_storeLength array short next
      obtain ⟨d1, loaded, load⟩ := allocates.follows_emit i
      obtain ⟨id, d2, interned, intern, named⟩ := load.allocates.follows_intern "length"
      obtain ⟨d3, stored, store⟩ := intern.allocates.follows_emit (.stObjByName id array)
      obtain ⟨e, ran, last⟩ := ending store.allocates
      rw [hole] at run
      have ran' : storeLength array items.length next a4 = .ok ((), d3) := by
        rw [length, Asm.run_bind_of_ok loaded, storeProperty, Asm.run_bind_of_ok interned, stored]
      obtain ⟨_, first, run⟩ := exists_of_bind_eq_ok (x := storeLength array _ next a4) run
      cases ran'.symm.trans first
      cases ran.symm.trans run
      refine ⟨_, ((load.trans intern).trans store).trans last, fun V c s done holds unset => ?_⟩
      have found := (store.trans last).getElem?_strings named
      simp [loads c _ s done holds]
      simp [ArrayCourse.step, holds.array, found]
  refine ⟨[.inl .createEmptyArray, .inl (.sta array)] ++ pieces ++ part.map .inl, ?_,
    fun V c s fresh => ?_⟩
  · simp [follows.emitted, emitted, begun.emitted, Segment.code, List.flatMap_map]
  · obtain ⟨t, ran, holds, evaluated, unset⟩ := stores V c (fun id => b.strings[id.index]?)
      { s with
        accumulator := .array, cells := fun _ => none, length := none
        registers := fun q => if q = array then .array else s.registers q } []
      ⟨by simp, by simp, by simp, by simp⟩
    obtain ⟨u, ran', loaded, cells, evaluated', length⟩ := ends V c t _ (by simpa using holds) unset
    refine ⟨u, ?_, loaded, ?_, ?_, ?_⟩
    · simp [ArrayCourse.step, List.foldlM_append] at ran ran' ⊢
      rw [ran]
      exact ran'
    · rw [cells, holds.cells]
      simp [fresh]
    · simp [evaluated', evaluated, fresh]
    · rw [length]
      simp [fresh]

/-- The code that loads a literal by itself. -/
def Literal.load? : Literal → Option Code
  | .integer n => some (emit (.ldai n))
  | .double x => some (emit (.fldai x))
  | .string text => some (loadString text)
  | .boolean value => some (constant (if value then .true else .false))
  | .null => some (constant .null)
  | _ => none

theorem Expr.load?_of_literal? {e : Expr} {l : Literal} (h : e.literal? = some l) :
    l.load? = some (e.lower env) := by
  obtain ⟨position, kind⟩ := e
  cases kind <;> cases h
  case number x =>
    rw [Literal.number, Expr.lower, ExprKind.lower, loadNumber]
    cases x.toInt32? <;> rfl
  all_goals rfl

/-- The literals of a buffer are what the code of the elements loads. -/
theorem forall₂_arrayLiterals? {es : List (Option Expr)} {ls : List Literal}
    (h : arrayLiterals? es = some ls) : List.Forall₂ (fun l item => ∃ code : Lower Unit,
      item = .value code ∧ l.load? = some (code env)) ls (Expr.lowerElements es) := by
  induction es generalizing ls with
  | nil => cases h; exact .nil
  | cons e es ih =>
    obtain ⟨l, literal, rest⟩ := Option.bind_eq_some_iff.mp ((List.mapM_cons ..).symm.trans h)
    obtain ⟨ls, others, ⟨⟩⟩ := Option.bind_eq_some_iff.mp rest
    obtain ⟨e, rfl, constant⟩ := Option.bind_eq_some_iff.mp literal
    refine .cons ⟨e.lower, ?_, e.load?_of_literal? constant⟩ (ih others)
    obtain ⟨position, kind⟩ := e
    cases kind <;> cases constant <;> rfl

/-- The code of array elements runs to its end, evaluates each of them once and in order, and leaves
the array that `layout` says, with its length set if a hole is last.  Constants alone come from a
buffer instead, which has at each index the literal that the element there would load. -/
theorem places_elements (fields : InitializesFields env.fieldInit) {es : List (Option Expr)}
    (short : es.length < 2 ^ 53) {a : Assembler} {temps : List Register} (allocated : a.Allocates temps) :
    (∀ b, arrayOf (Expr.lowerElements es) env a = .ok ((), b) →
      ∃ pieces : List (Segment id), b.instructions = a.instructions ++ pieces.flatMap Segment.code ∧
        ∀ (V : Type) (c : ArrayCourse V) (s : ArrayMachine V), s.evaluated = [] →
          ∃ t, c.run (fun id => b.strings[id.index]?) s pieces = some t ∧ t.accumulator = .array ∧
            t.cells = (fun i => (c.layout 0 (Expr.lowerElements es))[i]?.join) ∧
            t.evaluated = (Expr.lowerElements es).filterMap (·.code? env) ∧
            t.length = if (Expr.lowerElements es).getLast?.any ArrayItem.isHole then
              some (c.layout 0 (Expr.lowerElements es)).length else none) ∧
    ∀ position l ls b, arrayLiterals? es = some (l :: ls) →
      Expr.lower ⟨position, .array es⟩ env a = .ok ((), b) → ∃ k,
        b.instructions = a.instructions ++ [.createArrayWithBuffer k] ∧
        b.literals[k]? = some (l :: ls) ∧ List.Forall₂ (fun l item => ∃ code : Lower Unit,
          item = .value code ∧ l.load? = some (code env)) (l :: ls) (Expr.lowerElements es) := by
  refine ⟨fun b run => places_items (Expr.lowerElements_neutral fields.neutral es)
    (length_lowerElements es ▸ short) allocated run, fun position l ls b constant run => ?_⟩
  have buffered : Expr.lower ⟨position, .array es⟩ env = arrayOfLiterals (l :: ls) := by
    rw [Expr.lower, ExprKind.lower, arrayLiteral, constant]
    rfl
  rw [buffered] at run
  cases run
  exact ⟨a.literals.size, by simp [Assembler.instructions], by simp, forall₂_arrayLiterals? constant⟩

/-- The elements of `[, ...x, y]`. -/
def Expr.spreadBetween : List (Option Expr) :=
  let name (text : String) : Expr := ⟨⟨1, 0⟩, .identifier text⟩
  [none, some ⟨⟨1, 0⟩, .spread (name "x")⟩, some (name "y")]

theorem places_elements_spread : ∃ (c : CompileContext) (b : Assembler) (pieces : List (Segment id)),
    arrayOf (Expr.lowerElements Expr.spreadBetween) (c.env .program ScopeTree.rootId) {} = .ok ((), b) ∧
    b.instructions = pieces.flatMap Segment.code ∧
    ∀ (V : Type) (d : ArrayCourse V) (s : ArrayMachine V), s.evaluated = [] →
      ∃ t, d.run (fun id => b.strings[id.index]?) s pieces = some t ∧ t.length = none ∧
        t.cells = fun i => (none :: (d.items (d.value 0)).map some ++ [some (d.value 1)])[i]?.join := by
  have runs : ((CompileContext.ofProgram .collector {} (fun _ => none)).bind fun c => c.run.map fun _ =>
      (arrayOf (Expr.lowerElements Expr.spreadBetween) (c.env .program ScopeTree.rootId)
        {}).toOption.isSome).toOption = some true := by
    decide +kernel
  obtain ⟨c, -, -, -, ran⟩ := exists_of_compiled runs
  cases run : arrayOf (Expr.lowerElements Expr.spreadBetween) (c.env .program ScopeTree.rootId) {} with
  | error failure => simp [run, Except.toOption] at ran
  | ok result =>
    obtain ⟨pieces, emitted, places⟩ := (places_elements c.initializesFields (by decide) .empty).1 result.2 run
    refine ⟨c, result.2, pieces, run, emitted, fun V d s fresh => ?_⟩
    obtain ⟨t, ran, -, cells, -, length⟩ := places V d s fresh
    exact ⟨t, ran, length, cells⟩

end AccScript
