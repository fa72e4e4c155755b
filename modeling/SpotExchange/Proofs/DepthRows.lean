import SpotExchange.Proofs.BookShape
import SpotExchange.Book.DepthView

/-!
What the rows of a depth view say. A view shows how much stands at each price. It
may have dropped prices for room, but at every price better than all it dropped its
row is exact; and no row shows more than there is.
-/

namespace SpotExchange

namespace DepthView

/-- Rows from the best price outward, one for each price. -/
def Sorted (side : Side) (rows : List DepthRow) : Prop :=
  rows.Pairwise fun near far => side.better near.price far.price = true

/-- How much rows show at a price. -/
def shown (rows : List DepthRow) (p : ℚ) : ℚ :=
  ((rows.filter fun row => row.price.value = p).map fun row => row.amount.value).sum

section Shown
variable {side : Side} {rows : List DepthRow} {p : ℚ}

@[simp] theorem shown_nil : shown [] p = 0 := rfl

@[simp] theorem shown_cons (row : DepthRow) : shown (row :: rows) p =
    (if row.price.value = p then row.amount.value else 0) + shown rows p := by
  unfold shown
  by_cases here : row.price.value = p <;> simp [here]

@[simp] theorem shown_append (before after : List DepthRow) :
    shown (before ++ after) p = shown before p + shown after p := by
  simp [shown]

theorem shown_absent (absent : ∀ row ∈ rows, row.price.value ≠ p) : shown rows p = 0 := by
  have none : (rows.filter fun row => row.price.value = p) = [] :=
    List.filter_eq_nil_iff.mpr fun row member => by simpa using absent row member
  rw [shown, none, List.map_nil, List.sum_nil]

theorem sorted_cons {row : DepthRow} : Sorted side (row :: rows) ↔
    (∀ other ∈ rows, side.better row.price other.price = true) ∧ Sorted side rows :=
  List.pairwise_cons

theorem shown_around {before after : List DepthRow} {row : DepthRow}
    (sorted : Sorted side (before ++ row :: after)) :
    shown before row.price.value = 0 ∧ shown after row.price.value = 0 := by
  obtain ⟨-, last, between⟩ := List.pairwise_append.mp sorted
  constructor
  · exact shown_absent fun other member =>
      Side.value_ne_of_better (between other member row List.mem_cons_self)
  · exact shown_absent fun other member =>
      (Side.value_ne_of_better ((sorted_cons.mp last).1 other member)).symm

theorem shown_of_mem (sorted : Sorted side rows) {row : DepthRow} (member : row ∈ rows) :
    shown rows row.price.value = row.amount.value := by
  obtain ⟨before, after, rfl⟩ := List.append_of_mem member
  obtain ⟨near, far⟩ := shown_around sorted
  rw [shown_append, shown_cons, if_pos rfl, near, far, zero_add, add_zero]

theorem Sorted.of_prices {later : List DepthRow} (sorted : Sorted side rows)
    (fewer : (later.map DepthRow.price).Sublist (rows.map DepthRow.price)) :
    Sorted side later := by
  have by_price (list : List DepthRow) : Sorted side list ↔
      (list.map DepthRow.price).Pairwise fun near far => side.better near far = true := by
    rw [List.pairwise_map]
    rfl
  rw [by_price] at sorted ⊢
  exact sorted.sublist fewer

theorem Sorted.insert {before after kept : List DepthRow} (sorted : Sorted side (before ++ after))
    (fewer : kept.Sublist after) {row : DepthRow}
    (near : ∀ other ∈ before, side.better other.price row.price = true)
    (far : ∀ other ∈ after, side.better row.price other.price = true) :
    Sorted side (before ++ row :: kept) := by
  obtain ⟨first, last, between⟩ := List.pairwise_append.mp sorted
  have rest : Sorted side (row :: after) := sorted_cons.mpr ⟨far, last⟩
  refine List.pairwise_append.mpr ⟨first, rest.sublist (fewer.cons_cons row), ?_⟩
  intro other member behind member'
  rcases List.mem_cons.mp member' with rfl | kept'
  · exact near other member
  · exact between other member behind (fewer.subset kept')

end Shown

section Changes
variable {side : Side} {price amount : Decimal} {rows later : List DepthRow}

theorem removeRow_eq_some (removed : removeRow price amount rows = .ok (some later)) :
    ∃ before row after left, rows = before ++ row :: after ∧ row.price.value = price.value ∧
      row.amount.sub amount = .ok left ∧
      later = before ++ if left ≤ 0 then after else { row with amount := left } :: after := by
  induction rows generalizing later with
  | nil => cases removed
  | cons row rest ih =>
      rw [removeRow] at removed
      split_ifs at removed with same
      · simp only [bind_eq_ok, return_eq_ok, Option.some.injEq] at removed
        obtain ⟨left, subtracted, rfl⟩ := removed
        exact ⟨[], row, rest, left, rfl, (Decimal.equiv_iff_value _ _).mp same, subtracted, rfl⟩
      · simp only [bind_eq_ok, return_eq_ok, Option.map_eq_some_iff] at removed
        obtain ⟨_, deeper, others, rfl, rfl⟩ := removed
        obtain ⟨before, found, after, left, rfl, same', subtracted, rfl⟩ := ih deeper
        exact ⟨row :: before, found, after, left, rfl, same', subtracted, rfl⟩

theorem removeRow_eq_none (removed : removeRow price amount rows = .ok none) :
    ∀ row ∈ rows, row.price.value ≠ price.value := by
  induction rows with
  | nil => exact fun _ member => nomatch member
  | cons row rest ih =>
      rw [removeRow] at removed
      split_ifs at removed with same
      · obtain ⟨left, -, none⟩ := (bind_eq_ok _ _ _).mp removed
        cases none
      · simp only [bind_eq_ok, return_eq_ok, Option.map_eq_none_iff] at removed
        obtain ⟨_, deeper, rfl⟩ := removed
        exact List.forall_mem_cons.mpr
          ⟨mt (Decimal.equiv_iff_value _ _).mpr same, ih deeper⟩

/-- Adding an amount at a price: its row grows, or it gets a row between those with
better and worse prices, as far as there is room for it and for those behind it. -/
theorem insertRow_cases {room : Nat} {result : Option (List DepthRow)} (sorted : Sorted side rows)
    (inserted : insertRow side price amount room rows = .ok result) :
    (∃ before row after sum, rows = before ++ row :: after ∧ row.price.value = price.value ∧
      row.amount.add amount = .ok sum ∧
      result = some (before ++ { row with amount := sum } :: after)) ∨
    ∃ before after, rows = before ++ after ∧
      (∀ row ∈ before, side.better row.price price = true) ∧
      (∀ row ∈ after, side.better price row.price = true) ∧
      result = if before.length < room then
        some ((before ++ ⟨price, amount⟩ :: after).take room) else none := by
  induction rows generalizing room result with
  | nil =>
      refine Or.inr ⟨[], [], rfl, by simp, by simp, ?_⟩
      cases room <;> cases inserted <;> simp
  | cons row rest ih =>
      obtain ⟨worse, tail⟩ := sorted_cons.mp sorted
      rw [insertRow] at inserted
      by_cases same : row.price ≈ price
      · -- there is a row at this price already
        simp only [if_pos same, bind_eq_ok, return_eq_ok] at inserted
        obtain ⟨sum, added, rfl⟩ := inserted
        exact Or.inl ⟨[], row, rest, sum, rfl, (Decimal.equiv_iff_value _ _).mp same, added, rfl⟩
      rw [if_neg same] at inserted
      by_cases ahead : side.better price row.price = true
      · -- the new row goes first, and the last ones may give way
        rw [if_pos ahead] at inserted
        refine Or.inr ⟨[], row :: rest, rfl, by simp, List.forall_mem_cons.mpr ⟨ahead, ?_⟩, ?_⟩
        · exact fun other behind => Side.better_trans ahead (worse other behind)
        · cases room <;> cases inserted <;> simp
      · simp only [if_neg ahead, bind_eq_ok, return_eq_ok] at inserted
        obtain ⟨deeper, below, rfl⟩ := inserted
        rcases ih tail below with ⟨before, found, after, sum, rfl, same', added, rfl⟩ |
          ⟨before, after, rfl, near, far, rfl⟩
        · exact Or.inl ⟨row :: before, found, after, sum, rfl, same', added, rfl⟩
        · refine Or.inr ⟨row :: before, after, rfl,
            List.forall_mem_cons.mpr ⟨Side.better_of_not same ahead, near⟩, far, ?_⟩
          cases room with
          | zero => simp
          | succ room => by_cases within : before.length < room <;> simp [within]

theorem exists_insertRow (side : Side) (room : Nat)
    (adds : ∀ row ∈ rows, row.price ≈ price → ∃ sum, row.amount.add amount = .ok sum) :
    ∃ result, insertRow side price amount room rows = .ok result := by
  induction rows generalizing room with
  | nil => cases room <;> exact ⟨_, rfl⟩
  | cons row rest ih =>
      obtain ⟨first, others⟩ := List.forall_mem_cons.mp adds
      rw [insertRow]
      split_ifs with same
      · obtain ⟨sum, added⟩ := first same
        exact ⟨_, by rw [added]; rfl⟩
      · exact ⟨_, rfl⟩
      · exact ⟨_, rfl⟩
      · obtain ⟨result, inserted⟩ := ih (room - 1) others
        exact ⟨_, by rw [inserted]; rfl⟩

theorem insertRow_eq_some {room : Nat} (sorted : Sorted side rows)
    (inserted : insertRow side price amount room rows = .ok (some later)) :
    (∃ before row after sum, rows = before ++ row :: after ∧ row.price.value = price.value ∧
      row.amount.add amount = .ok sum ∧ later = before ++ { row with amount := sum } :: after) ∨
    ∃ before after kept, rows = before ++ after ∧ kept.Sublist after ∧
      (∀ row ∈ before, side.better row.price price = true) ∧
      (∀ row ∈ after, side.better price row.price = true) ∧
      later = before ++ ⟨price, amount⟩ :: kept := by
  rcases insertRow_cases sorted inserted with ⟨before, row, after, sum, same, here, added, result⟩ |
    ⟨before, after, same, near, far, result⟩
  · exact Or.inl ⟨before, row, after, sum, same, here, added, Option.some.inj result⟩
  · split_ifs at result with within
    obtain ⟨room, rfl⟩ := Nat.exists_eq_add_of_lt within
    refine Or.inr
      ⟨before, after, after.take room, same, List.take_sublist room after, near, far, ?_⟩
    rw [Option.some.inj result, add_assoc, List.take_length_add_append, List.take_succ_cons]

theorem insertRow_eq_none {room : Nat} (sorted : Sorted side rows)
    (inserted : insertRow side price amount room rows = .ok none) :
    ∀ row ∈ rows, row.price.value ≠ price.value := by
  rcases insertRow_cases sorted inserted with ⟨_, _, _, _, -, -, -, result⟩ |
    ⟨before, after, rfl, near, far, -⟩
  · cases result
  · refine List.forall_mem_append.mpr ⟨?_, ?_⟩
    · exact fun row member => Side.value_ne_of_better (near row member)
    · exact fun row member => (Side.value_ne_of_better (far row member)).symm

end Changes

/-- Rows in good order: sorted, with exact amounts that are positive. -/
structure Tidy (places : Nat) (side : Side) (rows : List DepthRow) : Prop where
  sorted : Sorted side rows
  grid : ∀ row ∈ rows, row.amount.OnGrid places
  positive : ∀ row ∈ rows, 0 < row.amount.value

section Tidy
variable {places : Nat} {side : Side} {price amount : Decimal} {rows later : List DepthRow}

theorem Tidy.shown_nonneg (tidy : Tidy places side rows) (p : ℚ) : 0 ≤ shown rows p := by
  apply List.sum_nonneg
  intro amount member
  obtain ⟨row, inside, rfl⟩ := List.mem_map.mp member
  exact (tidy.positive row (List.mem_filter.mp inside).1).le

theorem Tidy.shown_pos_iff (tidy : Tidy places side rows) (p : ℚ) :
    0 < shown rows p ↔ ∃ row ∈ rows, row.price.value = p := by
  constructor
  · intro some
    by_contra none
    push Not at none
    exact some.ne' (shown_absent none)
  · rintro ⟨row, member, rfl⟩
    rw [shown_of_mem tidy.sorted member]
    exact tidy.positive row member

theorem Tidy.put {before after : List DepthRow} {row : DepthRow} (tidy : Tidy places side rows)
    (sorted : Sorted side (before ++ row :: after)) (known : before ++ after ⊆ rows)
    (grid : row.amount.OnGrid places) (positive : 0 < row.amount.value) :
    Tidy places side (before ++ row :: after) := by
  have old {other : DepthRow} (member : other ∈ before ++ row :: after) :
      other = row ∨ other ∈ rows := by
    rcases List.mem_append.mp member with first | behind
    · exact Or.inr (known (List.mem_append_left _ first))
    · rcases List.mem_cons.mp behind with same | last
      · exact Or.inl same
      · exact Or.inr (known (List.mem_append_right _ last))
  constructor
  · exact sorted
  · intro other member
    rcases old member with rfl | there
    · exact grid
    · exact tidy.grid other there
  · intro other member
    rcases old member with rfl | there
    · exact positive
    · exact tidy.positive other there

theorem Tidy.removeRow (tidy : Tidy places side rows) (grid : amount.OnGrid places)
    (small : |shown rows price.value - amount.value| * tenTo places < Decimal.bound)
    (removed : DepthView.removeRow price amount rows = .ok (some later)) :
    Tidy places side later ∧ ∀ p, shown later p =
      if p = price.value then Max.max (shown rows p - amount.value) 0 else shown rows p := by
  obtain ⟨before, row, after, left, rfl, same, subtracted, rfl⟩ := removeRow_eq_some removed
  obtain ⟨near, far⟩ := shown_around tidy.sorted
  have member : row ∈ before ++ row :: after := by simp
  rw [← same] at small ⊢
  rw [shown_of_mem tidy.sorted member] at small
  obtain ⟨exact, equal, value⟩ := Decimal.sub_exact (tidy.grid row member) grid small
  obtain rfl : exact = left := Except.ok.inj (equal.symm.trans subtracted)
  -- the row goes when nothing is left of it
  by_cases none : exact ≤ 0
  · have nothing := none
    rw [Decimal.nonpos_iff, value] at nothing
    have fewer : (before ++ after).Sublist (before ++ row :: after) :=
      (List.sublist_cons_self row after).append_left before
    rw [if_pos none]
    refine ⟨⟨tidy.sorted.sublist fewer, fun other kept => tidy.grid other (fewer.subset kept),
      fun other kept => tidy.positive other (fewer.subset kept)⟩, ?_⟩
    intro p
    by_cases here : p = row.price.value
    · subst here
      simp [near, far, max_eq_right nothing]
    · simp [here, Ne.symm here]
  · have some := none
    rw [Decimal.not_nonpos_iff, value] at some
    rw [if_neg none]
    constructor
    · exact tidy.put (tidy.sorted.of_prices (by simp)) (by simp)
        (Decimal.onGrid_of_value_sub (tidy.grid row member) grid value) (value ▸ some)
    · intro p
      by_cases here : p = row.price.value
      · subst here
        simp [near, far, value, max_eq_left some.le]
      · simp [here, Ne.symm here]

theorem Tidy.grow {before after : List DepthRow} {row : DepthRow} {sum : Decimal}
    (tidy : Tidy places side (before ++ row :: after)) (grid : amount.OnGrid places)
    (positive : 0 < amount.value)
    (small : (row.amount.value + amount.value) * tenTo places < Decimal.bound)
    (added : row.amount.add amount = .ok sum) :
    Tidy places side (before ++ { row with amount := sum } :: after) ∧
      ∀ p, shown (before ++ { row with amount := sum } :: after) p =
        shown (before ++ row :: after) p + if row.price.value = p then amount.value else 0 := by
  have member : row ∈ before ++ row :: after := by simp
  have row_pos := tidy.positive row member
  obtain ⟨exact, equal, value⟩ := Decimal.add_exact (tidy.grid row member) grid (by
    rwa [abs_of_pos (add_pos row_pos positive)])
  obtain rfl : exact = sum := Except.ok.inj (equal.symm.trans added)
  constructor
  · exact tidy.put (tidy.sorted.of_prices (by simp)) (by simp)
      (Decimal.onGrid_of_value_add (tidy.grid row member) grid value)
      (value ▸ add_pos row_pos positive)
  · intro p
    simp only [shown_append, shown_cons, value]
    split_ifs <;> ring

theorem Tidy.slot {before after kept : List DepthRow}
    (tidy : Tidy places side (before ++ after)) (fewer : kept.Sublist after)
    (near : ∀ row ∈ before, side.better row.price price = true)
    (far : ∀ row ∈ after, side.better price row.price = true) (grid : amount.OnGrid places)
    (positive : 0 < amount.value) :
    Tidy places side (before ++ ⟨price, amount⟩ :: kept) ∧
      shown (before ++ ⟨price, amount⟩ :: kept) price.value =
        shown (before ++ after) price.value + amount.value ∧
      ∀ p ≠ price.value,
        shown (before ++ ⟨price, amount⟩ :: kept) p = shown (before ++ after) p ∨
          ∃ row ∈ before ++ after, row.price.value = p ∧
            ∀ other ∈ before ++ ⟨price, amount⟩ :: kept, other.price.value ≠ p := by
  have sorted : Sorted side (before ++ ⟨price, amount⟩ :: kept) :=
    tidy.sorted.insert fewer near far
  refine ⟨tidy.put sorted (fewer.append_left before).subset grid positive, ?_, ?_⟩
  · have first : shown before price.value = 0 :=
      shown_absent fun row member => Side.value_ne_of_better (near row member)
    have last : shown after price.value = 0 :=
      shown_absent fun row member => (Side.value_ne_of_better (far row member)).symm
    have left : shown kept price.value = 0 := shown_absent fun row member =>
      (Side.value_ne_of_better (far row (fewer.subset member))).symm
    simp [first, last, left]
  · intro p apart
    by_cases there : ∃ row ∈ before ++ ⟨price, amount⟩ :: kept, row.price.value = p
    · -- a row that is still there shows what it did
      obtain ⟨row, member, rfl⟩ := there
      have before_too : row ∈ before ++ after := by
        simp only [List.mem_append, List.mem_cons] at member ⊢
        rcases member with first | rfl | last
        · exact Or.inl first
        · exact absurd rfl apart
        · exact Or.inr (fewer.subset last)
      exact Or.inl ((shown_of_mem sorted member).trans
        (shown_of_mem tidy.sorted before_too).symm)
    · push Not at there
      by_cases before_too : ∃ row ∈ before ++ after, row.price.value = p
      · obtain ⟨row, member, same⟩ := before_too
        exact Or.inr ⟨row, member, same, there⟩
      · push Not at before_too
        exact Or.inl ((shown_absent there).trans (shown_absent before_too).symm)

/-- What is added at a price is shown there; elsewhere the rows show what they did,
or a row gave way. -/
theorem Tidy.insertRow {room : Nat} (tidy : Tidy places side rows) (grid : amount.OnGrid places)
    (positive : 0 < amount.value)
    (small : (shown rows price.value + amount.value) * tenTo places < Decimal.bound)
    (inserted : DepthView.insertRow side price amount room rows = .ok (some later)) :
    Tidy places side later ∧ shown later price.value = shown rows price.value + amount.value ∧
      ∀ p ≠ price.value, shown later p = shown rows p ∨
        ∃ row ∈ rows, row.price.value = p ∧ ∀ other ∈ later, other.price.value ≠ p := by
  rcases insertRow_eq_some tidy.sorted inserted with
    ⟨before, row, after, sum, rfl, same, added, rfl⟩ |
    ⟨before, after, kept, rfl, fewer, near, far, rfl⟩
  · rw [← same, shown_of_mem tidy.sorted (by simp)] at small
    obtain ⟨grown, shows⟩ := tidy.grow grid positive small added
    refine ⟨grown, by rw [shows, if_pos same], ?_⟩
    intro p apart
    rw [shows, if_neg (same ▸ apart.symm), add_zero]
    exact Or.inl rfl
  · exact tidy.slot fewer near far grid positive

end Tidy

/-- The prices that a view lost when it took in an order: that of the order, if it
has no row then, and those of rows that gave way. -/
def lost (before after : DepthView) (order : Order) : List Decimal :=
  (order.price :: before.rows.map DepthRow.price).filter fun price =>
    !after.rows.any fun row => row.price ≈ price

theorem mem_lost {before after : DepthView} {order : Order} {price : Decimal} :
    price ∈ lost before after order ↔
      (price = order.price ∨ ∃ row ∈ before.rows, row.price = price) ∧
        ∀ row ∈ after.rows, row.price.value ≠ price.value := by
  simp [lost, Decimal.equiv_iff_value]

/-- The rows of a view mirror how much stands at each price: nowhere they show more
than that, and at every price better than all that were dropped they show just that. -/
structure Mirrors (places : Nat) (side : Side) (dropped : List Decimal) (total : ℚ → ℚ)
    (view : DepthView) : Prop where
  side_eq : view.side = side
  tidy : Tidy places side view.rows
  within : ∀ p, shown view.rows p ≤ total p
  complete : ∀ price, (∀ other ∈ dropped, side.better price other = true) →
    shown view.rows price.value = total price.value

section Mirrors
variable {places : Nat} {side : Side} {dropped : List Decimal} {total total' : ℚ → ℚ}
  {view later : DepthView} {changed : Bool}

theorem Mirrors.empty (maxDepth : Nat) :
    Mirrors places side dropped (fun _ => 0) (.empty side maxDepth) where
  side_eq := rfl
  tidy := ⟨.nil, fun _ member => (nomatch member), fun _ member => (nomatch member)⟩
  within := fun _ => le_rfl
  complete := fun _ _ => rfl

theorem Mirrors.removeAt {price amount : Decimal} (mirrors : Mirrors places side dropped total view)
    (grid : amount.OnGrid places) (nonneg : 0 ≤ amount.value)
    (enough : amount.value ≤ total price.value)
    (small : total price.value * tenTo places < Decimal.bound)
    (fewer : ∀ p, total' p = total p - if p = price.value then amount.value else 0)
    (removed : view.removeAt price amount = .ok (changed, later)) :
    Mirrors places side dropped total' later := by
  have some := mirrors.tidy.shown_nonneg price.value
  have most := mirrors.within price.value
  obtain ⟨side_eq, tidy, shows⟩ : later.side = side ∧ Tidy places side later.rows ∧
      ∀ p, shown later.rows p = if p = price.value then
        Max.max (shown view.rows p - amount.value) 0 else shown view.rows p := by
    obtain ⟨result, taken, rest⟩ := (bind_eq_ok _ _ _).mp removed
    cases result with
    | none =>
        cases rest
        refine ⟨mirrors.side_eq, mirrors.tidy, ?_⟩
        intro p
        by_cases here : p = price.value
        · rw [if_pos here, here, shown_absent (removeRow_eq_none taken)]
          exact (max_eq_right (by linarith)).symm
        · rw [if_neg here]
    | some rows =>
        cases rest
        refine ⟨mirrors.side_eq, mirrors.tidy.removeRow grid ?_ taken⟩
        refine Decimal.scaled_lt ?_ small
        rw [abs_le]
        constructor <;> linarith
  refine ⟨side_eq, tidy, ?_, ?_⟩
  · intro p
    rw [shows, fewer]
    split_ifs with here
    · subst here
      exact max_le (sub_le_sub_right most _) (sub_nonneg.mpr enough)
    · rw [sub_zero]
      exact mirrors.within p
  · intro other better
    rw [shows, fewer, mirrors.complete other better]
    split_ifs with here
    · rw [here]
      exact max_eq_left (sub_nonneg.mpr enough)
    · rw [sub_zero]

theorem Mirrors.refused {order : Order} {gain : ℚ}
    (mirrors : Mirrors places side dropped total view) (gain_nonneg : 0 ≤ gain)
    (more : ∀ p, total' p = total p + if p = order.price.value then gain else 0)
    (absent : ∀ row ∈ view.rows, row.price.value ≠ order.price.value) :
    Mirrors places side (dropped ++ lost view view order) total' view := by
  refine ⟨mirrors.side_eq, mirrors.tidy, ?_, ?_⟩
  · intro p
    rw [more]
    have most := mirrors.within p
    split_ifs <;> linarith
  · intro price better
    obtain ⟨earlier, last⟩ := List.forall_mem_append.mp better
    have other : price.value ≠ order.price.value :=
      Side.value_ne_of_better (last order.price (mem_lost.mpr ⟨Or.inl rfl, absent⟩))
    rw [more, if_neg other, add_zero]
    exact mirrors.complete price earlier

theorem Mirrors.shows {order : Order} {gain : ℚ}
    (mirrors : Mirrors places side dropped total view) (side_eq : later.side = side)
    (more : ∀ p, total' p = total p + if p = order.price.value then gain else 0)
    (tidy : Tidy places side later.rows)
    (here : shown later.rows order.price.value = shown view.rows order.price.value + gain)
    (elsewhere : ∀ p ≠ order.price.value, shown later.rows p = shown view.rows p ∨
      ∃ row ∈ view.rows, row.price.value = p ∧ ∀ other ∈ later.rows, other.price.value ≠ p) :
    Mirrors places side (dropped ++ lost view later order) total' later := by
  refine ⟨side_eq, tidy, ?_, ?_⟩
  · intro p
    rw [more]
    by_cases at_price : p = order.price.value
    · rw [if_pos at_price, at_price, here]
      exact add_le_add_left (mirrors.within _) gain
    · rw [if_neg at_price, add_zero]
      have before := mirrors.tidy.shown_nonneg p
      rcases elsewhere p at_price with same | ⟨_, -, -, absent⟩
      · exact same.trans_le (mirrors.within p)
      · exact (shown_absent absent).trans_le (before.trans (mirrors.within p))
  · intro price better
    obtain ⟨earlier, last⟩ := List.forall_mem_append.mp better
    have exact := mirrors.complete price earlier
    rw [more]
    by_cases at_price : price.value = order.price.value
    · rw [at_price] at exact ⊢
      rw [if_pos rfl, here, exact]
    · rw [if_neg at_price, add_zero, ← exact]
      refine (elsewhere price.value at_price).resolve_right ?_
      rintro ⟨row, member, same, absent⟩
      have gone := last row.price (mem_lost.mpr ⟨Or.inr ⟨row, member, rfl⟩, same ▸ absent⟩)
      exact Side.value_ne_of_better gone same.symm

/-- An order that is added to what stands at its price is added to the view, and
what the view loses for it counts as dropped. -/
theorem Mirrors.insert {order : Order} {remaining : Decimal}
    (mirrors : Mirrors places side dropped total view) (covers : view.covers order = true)
    (rest : order.remaining = .ok remaining) (grid : remaining.OnGrid places)
    (positive : 0 < remaining.value)
    (more : ∀ p, total' p = total p + if p = order.price.value then remaining.value else 0)
    (small : total' order.price.value * tenTo places < Decimal.bound)
    (inserted : view.insert order = .ok (changed, later)) :
    Mirrors places side (dropped ++ lost view later order) total' later := by
  have unspent : ¬ remaining ≤ 0 := by
    rwa [Decimal.not_nonpos_iff]
  simp only [DepthView.insert, covers, ↓reduceIte] at inserted
  obtain ⟨left, same, putting⟩ := (bind_eq_ok _ _ _).mp inserted
  obtain rfl : remaining = left := Except.ok.inj (rest.symm.trans same)
  rw [if_neg unspent] at putting
  obtain ⟨result, put, ended⟩ := (bind_eq_ok _ _ _).mp putting
  rw [mirrors.side_eq] at put
  cases result with
  | none =>
      cases ended
      exact mirrors.refused positive.le more (insertRow_eq_none mirrors.tidy.sorted put)
  | some rows =>
      cases ended
      rw [more, if_pos rfl] at small
      obtain ⟨tidy, here, elsewhere⟩ := mirrors.tidy.insertRow grid positive
        (Decimal.scaled_lt (add_le_add_left (mirrors.within _) _) small) put
      exact mirrors.shows mirrors.side_eq more tidy here elsewhere

end Mirrors

end DepthView

end SpotExchange
