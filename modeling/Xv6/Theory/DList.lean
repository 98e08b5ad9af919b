/-
# Theory.DList -- a circular doubly linked list through a sentinel head

A list of distinct elements `order` is kept as links between nodes: the
sentinel head (`none`) and the elements (`some a`).  From the head, `next`
goes through `order` and back to the head, and `prev` goes the other way.
`succ order x` is the node after `x` on that circle; the node before it is
`succ order.reverse x`, the circle read backwards.  `Links.Traces k order`
says the links `k` are those of `order` at every node on the circle.

`succ` of a list with an element `a` put in after a prefix `p` differs from
`succ` of the list without it only at the last node of `p` and at `a`
(`succ_insert`, `succ_append_getLast`, `succ_append_cons`).  That is all the
pointer surgery needs: putting `a` right after the head (`pushFront`) traces
`a :: order`, and taking it out by joining its neighbours (`unlink`) traces
`order.erase a` (`Traces.pushFront`, `Traces.unlink`); each is the same
insertion, read forwards for `next` and backwards for `prev`.

On a traced circle `next` and `prev` undo each other (`Traces.next_prev`),
`i` steps of `next` after the head reach `order[i]`, and `order.length` of
them come back to the head (`Traces.iterate_next`).  A walk from the head that
stops at the first element passing a test, given as many steps as there are
elements, finds what `List.find?` finds (`walk_eq_find?`).
-/
import Mathlib.Data.Fintype.Card

namespace DList

set_option autoImplicit false

variable {α : Type} [DecidableEq α]

/-- The node after `x` on the circle `head, order[0], …, order[n-1], head`. -/
def succ : List α → Option α → Option α
  | [], _ => none
  | a :: _, none => some a
  | a :: l, some x => if x = a then l.head? else succ l (some x)

/-! ## The successor on the circle -/

section Succ

@[simp] theorem succ_none (l : List α) : succ l none = l.head? := by
  cases l <;> rfl

/-- The node after `a` is the first of what follows it. -/
theorem succ_append_cons {p q : List α} {a : α} (nd : (p ++ a :: q).Nodup) : succ (p ++ a :: q) (some a) = q.head? := by
  induction p with
  | nil => simp [succ]
  | cons b p ih =>
    have ne : a ≠ b := fun same => (List.nodup_cons.mp nd).1 (same ▸ List.mem_append_right p List.mem_cons_self)
    rw [List.cons_append, succ, if_neg ne]
    exact ih (List.nodup_cons.mp nd).2

/-- The node after the last of `p` (the head, when `p` is empty) is the first of what follows. -/
theorem succ_append_getLast {p q : List α} (nd : (p ++ q).Nodup) : succ (p ++ q) p.getLast? = q.head? := by
  rcases List.eq_nil_or_concat' p with rfl | ⟨p', c, rfl⟩
  · simp
  · rw [List.getLast?_concat, List.append_assoc, List.singleton_append]
    exact succ_append_cons (by simpa using nd)

/-- Putting `a` in after `p` changes the circle only at the last node of `p` and at `a`. -/
theorem succ_insert {p q : List α} {a : α} (nd : (p ++ a :: q).Nodup) {x : Option α} (notNew : x ≠ some a)
    (notBefore : x ≠ p.getLast?) : succ (p ++ a :: q) x = succ (p ++ q) x := by
  induction p with
  | nil =>
    -- `x` is then an element, other than `a`
    obtain ⟨b, rfl⟩ := Option.ne_none_iff_exists'.mp notBefore
    have ne : b ≠ a := fun same => notNew (same ▸ rfl)
    simp only [List.nil_append, succ, if_neg ne]
  | cons c p ih =>
    have rest : (p ++ a :: q).Nodup := (List.nodup_cons.mp nd).2
    cases x with
    | none => rfl
    | some b =>
      simp only [List.cons_append, succ]
      by_cases first : b = c
      · -- `c` is not the last of `c :: p`, so `p` is not empty
        subst first
        have nonempty : p ≠ [] := by
          rintro rfl
          exact notBefore rfl
        rw [if_pos rfl, if_pos rfl, List.head?_append_of_ne_nil _ nonempty,
          List.head?_append_of_ne_nil _ nonempty]
      · rw [if_neg first, if_neg first]
        refine ih rest ?_
        rcases p with _ | ⟨d, p⟩
        · exact nofun
        · rwa [List.getLast?_cons_cons] at notBefore

/-- The node after `order[i]` is `order[i + 1]`, the head after the last. -/
theorem succ_getElem {l : List α} (nd : l.Nodup) {i : Nat} (lt : i < l.length) : succ l (some l[i]) = l[i + 1]? := by
  have split : l.take i ++ l[i] :: l.drop (i + 1) = l := by
    rw [List.getElem_cons_drop, List.take_append_drop]
  have after := succ_append_cons (p := l.take i) (q := l.drop (i + 1)) (a := l[i]) (split ▸ nd)
  rw [split, List.head?_drop] at after
  exact after

omit [DecidableEq α] in
/-- An element's node is on the circle. -/
theorem on_some {l : List α} {a : α} (mem : a ∈ l) : ∀ b ∈ some a, b ∈ l := by
  intro b same
  obtain rfl := Option.mem_some_iff.mp same
  exact mem

/-- The node after any node is on the circle. -/
theorem mem_of_succ {l : List α} {x : Option α} {a : α} (mem : a ∈ succ l x) : a ∈ l := by
  induction l with
  | nil => cases mem
  | cons c l ih =>
    cases x with
    | none =>
      cases mem
      exact List.mem_cons_self
    | some b =>
      simp only [succ] at mem
      split at mem
      · exact List.mem_cons_of_mem _ (List.mem_of_mem_head? mem)
      · exact List.mem_cons_of_mem _ (ih mem)

/-- Reading the circle backwards undoes reading it forwards. -/
theorem succ_reverse_succ {l : List α} (nd : l.Nodup) {x : Option α} (on : ∀ a ∈ x, a ∈ l) :
    succ l.reverse (succ l x) = x := by
  cases x with
  | none =>
    -- the first element comes after the head, and the head before it
    rcases l with _ | ⟨a, q⟩
    · rfl
    · rw [succ_none, List.head?_cons, List.reverse_cons]
      exact succ_append_cons (p := q.reverse) (q := []) (by simpa [List.reverse_cons] using (List.nodup_reverse.mpr nd))
  | some a =>
    obtain ⟨p, q, rfl⟩ := List.append_of_mem (on a rfl)
    rw [succ_append_cons nd]
    rcases q with _ | ⟨c, q⟩
    · -- `a` is the last element: the head is after it, and it is before the head
      simp
    · have backwards : (p ++ a :: c :: q).reverse = q.reverse ++ c :: (a :: p.reverse) := by simp
      rw [List.head?_cons, backwards, succ_append_cons (backwards ▸ (List.nodup_reverse.mpr nd)), List.head?_cons]

theorem succ_succ_reverse {l : List α} (nd : l.Nodup) {x : Option α} (on : ∀ a ∈ x, a ∈ l) :
    succ l (succ l.reverse x) = x := by
  simpa using succ_reverse_succ (List.nodup_reverse.mpr nd) (l := l.reverse) fun a mem => List.mem_reverse.mpr (on a mem)

end Succ

/-! ## Links -/

/-- The `next` and `prev` pointer of every node. -/
structure Links (α : Type) where
  next : Option α → Option α
  prev : Option α → Option α

namespace Links

/-- `head.prev = &head; head.next = &head;`, nothing else linked yet. -/
def init : Links α := ⟨fun _ => none, fun _ => none⟩

def setNext (k : Links α) (x y : Option α) : Links α := { k with next := Function.update k.next x y }

def setPrev (k : Links α) (x y : Option α) : Links α := { k with prev := Function.update k.prev x y }

/-- `a->next = head.next; a->prev = &head; head.next->prev = a; head.next = a;` -/
def pushFront (k : Links α) (a : α) : Links α :=
  let k := k.setNext (some a) (k.next none)
  let k := k.setPrev (some a) none
  let k := k.setPrev (k.next none) (some a)
  k.setNext none (some a)

/-- `a->next->prev = a->prev; a->prev->next = a->next;` -/
def unlink (k : Links α) (a : α) : Links α :=
  let k := k.setPrev (k.next (some a)) (k.prev (some a))
  k.setNext (k.prev (some a)) (k.next (some a))

/-- The links of the circle of `order`, at every node on it. -/
def Traces (k : Links α) (order : List α) : Prop :=
  ∀ x : Option α, (∀ a ∈ x, a ∈ order) → k.next x = succ order x ∧ k.prev x = succ order.reverse x

theorem traces_init : (init : Links α).Traces [] := fun _ _ => ⟨rfl, rfl⟩

section Surgery

variable {k : Links α} {order : List α}

theorem pushFront_next (a : α) (x : Option α) :
    (k.pushFront a).next x = if x = none then some a else if x = some a then k.next none else k.next x := by
  simp only [pushFront, setNext, setPrev, Function.update_apply]

theorem pushFront_prev (a : α) (x : Option α) :
    (k.pushFront a).prev x = if x = k.next none then some a else if x = some a then none else k.prev x := by
  simp only [pushFront, setNext, setPrev, Function.update_apply]
  split_ifs <;> simp_all

/-- Putting a new element right after the head. -/
theorem Traces.pushFront (tr : k.Traces order) (nd : order.Nodup) {a : α} (fresh : a ∉ order) :
    (k.pushFront a).Traces (a :: order) := by
  have first : k.next none = order.head? := (tr none nofun).1.trans (succ_none order)
  have nd' : ([] ++ a :: order).Nodup := List.nodup_cons.mpr ⟨fresh, nd⟩
  have ndBack : (order.reverse ++ a :: []).Nodup := by simpa using (List.nodup_reverse.mpr nd')
  intro x on
  -- `x` is the head, `a`, or a node already on the circle
  have old (notNew : x ≠ some a) : ∀ b ∈ x, b ∈ order := fun b mem => by
    rcases List.mem_cons.mp (on b mem) with rfl | later
    · exact absurd (Option.mem_def.mp mem) notNew
    · exact later
  rw [pushFront_next, pushFront_prev, first, List.reverse_cons]
  constructor
  · by_cases head : x = none
    · rw [if_pos head, head, succ_none, List.head?_cons]
    rw [if_neg head]
    by_cases new : x = some a
    · rw [if_pos new, new]
      exact (succ_append_cons nd').symm
    · rw [if_neg new, (tr x (old new)).1]
      exact (succ_insert nd' new head).symm
  · by_cases before : x = order.head?
    · rw [if_pos before, before, ← List.getLast?_reverse]
      exact (succ_append_getLast ndBack).symm
    rw [if_neg before]
    by_cases new : x = some a
    · rw [if_pos new, new, succ_append_cons ndBack]
      rfl
    · rw [if_neg new, (tr x (old new)).2]
      have inserted := succ_insert ndBack new (by rwa [List.getLast?_reverse])
      rw [List.append_nil] at inserted
      exact inserted.symm

/-- Putting the elements of `l` in at the front, one after another, traces
them in reverse before what was there. -/
theorem Traces.foldl_pushFront :
    ∀ (l : List α) {k : Links α} {order : List α}, k.Traces order → (l.reverse ++ order).Nodup →
      (l.foldl Links.pushFront k).Traces (l.reverse ++ order)
  | [], _, _, tr, _ => tr
  | a :: l, k, order, tr, nd => by
    have moved : (a :: l).reverse ++ order = l.reverse ++ a :: order := by simp
    rw [moved] at nd ⊢
    have front := List.nodup_cons.mp (List.nodup_append.mp nd).2.1
    exact Traces.foldl_pushFront l (tr.pushFront front.2 front.1) nd

theorem unlink_next (a : α) (x : Option α) (ne : k.next (some a) ≠ some a) :
    (k.unlink a).next x = if x = k.prev (some a) then k.next (some a) else k.next x := by
  simp only [unlink, setNext, setPrev, Function.update_apply, if_neg (Ne.symm ne)]

theorem unlink_prev (a : α) (x : Option α) :
    (k.unlink a).prev x = if x = k.next (some a) then k.prev (some a) else k.prev x := by
  simp only [unlink, setNext, setPrev, Function.update_apply]

/-- Taking an element out by joining its neighbours. -/
theorem Traces.unlink (tr : k.Traces order) (nd : order.Nodup) {a : α} (mem : a ∈ order) :
    (k.unlink a).Traces (order.erase a) := by
  obtain ⟨p, q, rfl⟩ := List.append_of_mem mem
  have outP : a ∉ p := fun inP => (List.nodup_middle.mp nd |> List.nodup_cons.mp).1 (List.mem_append_left q inP)
  have erased : (p ++ a :: q).erase a = p ++ q := by
    rw [List.erase_append_right _ outP, List.erase_cons_head]
  have ndBack : (q.reverse ++ a :: p.reverse).Nodup := by simpa using (List.nodup_reverse.mpr nd)
  have gone : (p ++ q).Nodup := erased ▸ nd.erase a
  -- `a`'s neighbours: the last of `p` before it, the first of `q` after it
  have after : k.next (some a) = q.head? := (tr (some a) (on_some mem)).1.trans
    (succ_append_cons nd)
  have before : k.prev (some a) = p.getLast? := by
    rw [(tr (some a) (on_some mem)).2, List.reverse_append, List.reverse_cons,
      List.append_assoc, List.singleton_append, succ_append_cons ndBack, List.head?_reverse]
  have aOut : a ∉ q.head? := fun inQ => (List.nodup_middle.mp nd |> List.nodup_cons.mp).1
    (List.mem_append_right p (List.mem_of_mem_head? inQ))
  rw [erased]
  intro x on
  have notA : x ≠ some a := by
    rintro rfl
    exact (List.nodup_middle.mp nd |> List.nodup_cons.mp).1 (on a rfl)
  have onOld : ∀ b ∈ x, b ∈ p ++ a :: q := fun b inX => List.mem_append.mpr
    ((List.mem_append.mp (on b inX)).imp id (List.mem_cons_of_mem a))
  rw [unlink_next a x (by rw [after]; exact fun same => aOut (Option.mem_def.mpr same)), unlink_prev, after,
    before, List.reverse_append]
  constructor
  · by_cases joined : x = p.getLast?
    · rw [if_pos joined, joined, succ_append_getLast gone]
    · rw [if_neg joined, (tr x onOld).1, succ_insert nd notA joined]
  · by_cases joined : x = q.head?
    · rw [if_pos joined, joined, ← List.getLast?_reverse, succ_append_getLast (by simpa using (List.nodup_reverse.mpr gone)),
        List.head?_reverse]
    · rw [if_neg joined, (tr x onOld).2, List.reverse_append, List.reverse_cons, List.append_assoc,
        List.singleton_append]
      exact succ_insert ndBack notA (by rwa [List.getLast?_reverse])

end Surgery

/-! ## Walking the circle -/

section Walk

variable {k : Links α} {order : List α}

/-- On the circle, `next` and `prev` undo each other. -/
theorem Traces.next_prev (tr : k.Traces order) (nd : order.Nodup) {x : Option α} (on : ∀ a ∈ x, a ∈ order) :
    k.next (k.prev x) = x ∧ k.prev (k.next x) = x := by
  obtain ⟨forwards, backwards⟩ := tr x on
  constructor
  · rw [backwards, (tr _ fun a mem => List.mem_reverse.mp (mem_of_succ mem)).1]
    exact succ_succ_reverse nd on
  · rw [forwards, (tr _ fun a mem => mem_of_succ mem).2]
    exact succ_reverse_succ nd on

/-- `i` steps of `next` after the head reach `order[i]`; after the last
element they are back at the head. -/
theorem Traces.iterate_next (tr : k.Traces order) (nd : order.Nodup) :
    ∀ i ≤ order.length, k.next^[i] (k.next none) = order[i]?
  | 0, _ => by
    rw [Function.iterate_zero_apply, (tr none nofun).1, succ_none, List.head?_eq_getElem?]
  | i + 1, le => by
    have lt : i < order.length := by omega
    rw [Function.iterate_succ_apply', Traces.iterate_next tr nd i (by omega), List.getElem?_eq_getElem lt,
      (tr _ (on_some (List.getElem_mem lt))).1]
    exact succ_getElem nd lt

/-- `for (x = start; x != &head; x = step(x)) if (test(x)) return x;`, for at
most `fuel` elements. -/
def walk (step : Option α → Option α) (test : α → Bool) : Nat → Option α → Option α
  | _, none => none
  | 0, some _ => none
  | fuel + 1, some a => if test a then some a else walk step test fuel (step (some a))

/-- A walk along links that follow the circle of `order`, with a step for
every element, finds the first element that passes the test.  The induction
runs over what is left of `order` after the element the walk is at. -/
theorem walk_eq_find? {step : Option α → Option α} (test : α → Bool)
    (agree : ∀ x : Option α, (∀ a ∈ x, a ∈ order) → step x = succ order x) (nd : order.Nodup)
    {fuel : Nat} (enough : order.length ≤ fuel) : walk step test fuel (succ order none) = order.find? test := by
  suffices rest : ∀ (q : List α) (p : List α) (fuel : Nat), order = p ++ q → q.length ≤ fuel →
      walk step test fuel q.head? = q.find? test by
    rw [succ_none]
    exact rest order [] fuel rfl enough
  intro q
  induction q with
  | nil =>
    intro p fuel _ _
    cases fuel <;> rfl
  | cons a q ih =>
    intro p fuel split long
    obtain ⟨fuel, rfl⟩ : ∃ f, fuel = f + 1 := ⟨fuel - 1, by simp at long; omega⟩
    have next : step (some a) = q.head? := by
      rw [agree (some a) (on_some (split ▸ List.mem_append_right p List.mem_cons_self)),
        split]
      exact succ_append_cons (split ▸ nd)
    rw [List.head?_cons, walk, List.find?_cons, next]
    cases test a with
    | true => rfl
    | false =>
      exact ih (p ++ [a]) fuel (by rw [split, List.append_assoc, List.singleton_append])
        (by simp at long; omega)

end Walk

end Links

end DList
