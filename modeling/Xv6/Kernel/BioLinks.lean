/-
# Kernel.BioLinks -- bio.c's buffer list, as the pointers it is

`Kernel.Bio` keeps the buffer cache's LRU list as a list of buffers
(`BCache.order`).  bio.c keeps it as `prev`/`next` pointers through the
sentinel `bcache.head`: `binit` puts each buffer in at `head.next`, `bget`
walks `next` from `head.next` to find a block and `prev` from `head.prev` to
find a free buffer, and `brelse` unlinks a buffer whose `refcnt` drops to 0
and puts it back in at `head.next`.  `LCache` is that pointer-level cache,
with `DList.Links` for the pointers and `DList.walk` for the two loops.

`LCache.Refines lc c` says the pointers of `lc` trace the list of `c`
(`DList.Links.Traces`), that list holds every buffer once, and the buffers
agree.  `binit` starts there, and each call keeps it while doing what the
list-level call does (`refines_binit`, `Refines.bget`, `Refines.bread`,
`Refines.brelse`, `Refines.bpin`, `Refines.bunpin`): the walks find what
`List.find?` finds on the list, and the unlink and relink of `brelse` traces
`b :: order.erase b`.

`LinkSys` runs the pointer-level cache with the references in flight, as
`BioSys` does, and adds ghost state: the list the pointers should trace, and
the time each buffer last went in at `head.next` (`binit` counts as putting
`buf[0]` in first).  Every step of `LinkSys` is a step of `BioSys` on the
list it stands for (`LinkSys.abs_step`), so `Bio`'s counting invariant holds
of it too, and the ghost list runs from the most to the least recently
freed buffer.  `bcache_links` gathers what follows for every reachable
state: the pointers form one circle through the head and each buffer once,
on which `next` and `prev` undo each other; `refcnt` is positive wherever
`brelse` or `bunpin` may take one away; `brelse` moves a buffer to
`head.next` exactly when its `refcnt` drops to 0; and `bget` of an uncached
block takes the free buffer released longest ago, panicking only when every
buffer is in use.
-/
import Xv6.Kernel.Bio
import Xv6.Theory.DList

namespace Xv6

open DList DList.Links

set_option autoImplicit false

/-- `bcache` with its pointers: the links of `&bcache.head` (`none`) and of
each `&bcache.buf[b]` (`some b`). -/
structure LCache where
  buf : Fin NBUF → Buf
  links : Links (Fin NBUF)

namespace LCache

/-- Replace buffer `b`. -/
def set (c : LCache) (b : Fin NBUF) (v : Buf) : LCache := { c with buf := Function.update c.buf b v }

@[simp] theorem set_buf_self (c : LCache) (b : Fin NBUF) (v : Buf) : (c.set b v).buf b = v := by
  simp [set]

@[simp] theorem set_links (c : LCache) (b : Fin NBUF) (v : Buf) : (c.set b v).links = c.links := rfl

/-- `binit`: the head alone, then each buffer in turn put in at `head.next`.
Before that the pointers are null; every one is written before it is read,
and the model starts them at the head. -/
def binit : LCache where
  buf := fun _ => ⟨false, 0, 0, 0, Block.zero⟩
  links := (List.finRange NBUF).foldl Links.pushFront Links.init

/-- `bget`'s first loop, `for(b = bcache.head.next; b != &bcache.head; b = b->next)`,
given a step for every buffer. -/
def lookup (c : LCache) (dev blockno : Nat) : Option (Fin NBUF) :=
  walk c.links.next (fun b => (c.buf b).dev == dev && (c.buf b).blockno == blockno) NBUF (c.links.next none)

/-- `bget`'s second loop, `for(b = bcache.head.prev; b != &bcache.head; b = b->prev)`. -/
def victim (c : LCache) : Option (Fin NBUF) :=
  walk c.links.prev (fun b => (c.buf b).refcnt == 0) NBUF (c.links.prev none)

/-- `bget`; `none` is the panic `"bget: no buffers"`. -/
def bget (c : LCache) (dev blockno : Nat) : Option (Fin NBUF × LCache) :=
  match c.lookup dev blockno with
  | some b => some (b, c.set b { c.buf b with refcnt := (c.buf b).refcnt + 1 })
  | none =>
      match c.victim with
      | some b => some (b, c.set b { c.buf b with dev, blockno, valid := false, refcnt := 1 })
      | none => none

/-- `bread`. -/
def bread (c : LCache) (disk : Disk) (dev blockno : Nat) : Option (Fin NBUF × LCache) :=
  (c.bget dev blockno).map fun (b, c) =>
    if (c.buf b).valid then (b, c) else (b, c.set b { c.buf b with data := disk blockno, valid := true })

/-- `brelse`: with no reference left, `b` is unlinked and put back in at `head.next`. -/
def brelse (c : LCache) (b : Fin NBUF) : LCache :=
  let c := c.set b { c.buf b with refcnt := (c.buf b).refcnt - 1 }
  if (c.buf b).refcnt = 0 then { c with links := (c.links.unlink b).pushFront b } else c

theorem brelse_buf (c : LCache) (b : Fin NBUF) :
    (c.brelse b).buf = (c.set b { c.buf b with refcnt := (c.buf b).refcnt - 1 }).buf := by
  unfold brelse
  dsimp only
  split <;> rfl

theorem refcnt_brelse (c : LCache) (b : Fin NBUF) : ((c.brelse b).buf b).refcnt = (c.buf b).refcnt - 1 := by
  rw [brelse_buf, set_buf_self]

/-- `brelse` relinks `b` exactly when its `refcnt` drops to 0. -/
theorem links_brelse (c : LCache) (b : Fin NBUF) :
    (c.brelse b).links = if (c.buf b).refcnt - 1 = 0 then (c.links.unlink b).pushFront b else c.links := by
  unfold brelse
  dsimp only
  rw [set_buf_self]
  split <;> rfl

/-- `bpin`. -/
def bpin (c : LCache) (b : Fin NBUF) : LCache := c.set b { c.buf b with refcnt := (c.buf b).refcnt + 1 }

/-- `bunpin`. -/
def bunpin (c : LCache) (b : Fin NBUF) : LCache := c.set b { c.buf b with refcnt := (c.buf b).refcnt - 1 }

/-! ## The pointers trace the list -/

/-- The pointers of `lc` trace the list of `c`, which holds every buffer once,
and the buffers agree. -/
structure Refines (lc : LCache) (c : BCache) : Prop where
  buf : lc.buf = c.buf
  links : lc.links.Traces c.order
  nodup : c.order.Nodup
  listed : ∀ b, b ∈ c.order

theorem refines_binit : binit.Refines BCache.binit where
  buf := rfl
  links := by
    have traced := traces_init.foldl_pushFront (List.finRange NBUF)
      (by rw [List.append_nil]; exact List.nodup_reverse.mpr (List.nodup_finRange NBUF))
    rw [List.append_nil] at traced
    exact traced
  nodup := List.nodup_reverse.mpr (List.nodup_finRange NBUF)
  listed b := List.mem_reverse.mpr (List.mem_finRange b)

section Refines

variable {lc : LCache} {c : BCache}

theorem Refines.set (r : lc.Refines c) (b : Fin NBUF) (v : Buf) : (lc.set b v).Refines (c.set b v) where
  buf := by
    simp only [LCache.set, BCache.set, r.buf]
  links := r.links
  nodup := r.nodup
  listed := r.listed

theorem Refines.length_le (r : lc.Refines c) : c.order.length ≤ NBUF :=
  r.nodup.length_le_card.trans (Fintype.card_fin NBUF).le

/-- Walking `next` from `head.next` finds what the list-level search finds. -/
theorem Refines.lookup (r : lc.Refines c) (dev blockno : Nat) : lc.lookup dev blockno = c.lookup dev blockno := by
  unfold LCache.lookup BCache.lookup
  rw [r.buf, (r.links none nofun).1]
  exact walk_eq_find? _ (fun x on => (r.links x on).1) r.nodup r.length_le

/-- Walking `prev` from `head.prev` is the search of the list from its end. -/
theorem Refines.victim (r : lc.Refines c) : lc.victim = c.victim := by
  unfold LCache.victim BCache.victim
  rw [r.buf, (r.links none nofun).2]
  refine walk_eq_find? _ (fun x on => (r.links x fun a mem => List.mem_reverse.mp (on a mem)).2)
    (List.nodup_reverse.mpr r.nodup) ?_
  rw [List.length_reverse]
  exact r.length_le

/-- `bget` returns the same buffer at both levels, or panics at both. -/
theorem Refines.bget (r : lc.Refines c) (dev blockno : Nat) :
    Option.Rel (fun x y => x.1 = y.1 ∧ x.2.Refines y.2) (lc.bget dev blockno) (c.bget dev blockno) := by
  unfold LCache.bget BCache.bget
  rw [r.lookup dev blockno, r.victim, r.buf]
  cases c.lookup dev blockno with
  | some b => exact .some ⟨rfl, r.set _ _⟩
  | none =>
    cases c.victim with
    | some b => exact .some ⟨rfl, r.set _ _⟩
    | none => exact .none

theorem Refines.bread (r : lc.Refines c) (disk : Disk) (dev blockno : Nat) :
    Option.Rel (fun x y => x.1 = y.1 ∧ x.2.Refines y.2) (lc.bread disk dev blockno) (c.bread disk dev blockno) := by
  have rel := r.bget dev blockno
  unfold LCache.bread BCache.bread
  generalize lc.bget dev blockno = x at rel ⊢
  generalize c.bget dev blockno = y at rel ⊢
  cases rel with
  | none => exact .none
  | @some x y same =>
    obtain ⟨b, lc'⟩ := x
    obtain ⟨b', c'⟩ := y
    obtain ⟨sameBuf, r'⟩ := same
    dsimp only at sameBuf r'
    subst sameBuf
    -- both read the block in, or neither, as the buffers agree
    simp only [Option.map_some, r'.buf]
    split_ifs
    · exact .some ⟨rfl, r'⟩
    · exact .some ⟨rfl, r'.set _ _⟩

/-- `brelse`'s unlink and relink at `head.next` traces the list with `b`
moved to the front. -/
theorem Refines.brelse (r : lc.Refines c) (b : Fin NBUF) : (lc.brelse b).Refines (c.brelse b) := by
  have r' := r.set b { c.buf b with refcnt := (c.buf b).refcnt - 1 }
  simp only [LCache.brelse, BCache.brelse, LCache.set_buf_self, BCache.set_buf_self, r.buf]
  split_ifs
  · -- the pointers trace `b :: order.erase b`, which holds every buffer once
    have out := r.nodup.not_mem_erase (a := b)
    refine ⟨r'.buf, ?_, List.nodup_cons.mpr ⟨out, r.nodup.erase b⟩, fun b' => ?_⟩
    · exact (r.links.unlink r.nodup (r.listed b)).pushFront (r.nodup.erase b) out
    · by_cases same : b' = b
      · exact same ▸ List.mem_cons_self
      · exact List.mem_cons_of_mem _ ((List.mem_erase_of_ne same).mpr (r.listed b'))
  · exact r'

theorem Refines.bpin (r : lc.Refines c) (b : Fin NBUF) : (lc.bpin b).Refines (c.bpin b) := by
  unfold LCache.bpin BCache.bpin
  rw [r.buf]
  exact r.set _ _

theorem Refines.bunpin (r : lc.Refines c) (b : Fin NBUF) : (lc.bunpin b).Refines (c.bunpin b) := by
  unfold LCache.bunpin BCache.bunpin
  rw [r.buf]
  exact r.set _ _

end Refines

end LCache

/-! ## The pointer-level cache with its references -/

/-- The pointer-level cache with every reference in flight, and ghost state:
the list its pointers should trace and when each buffer last went in at
`head.next`. -/
structure LinkSys where
  cache : LCache
  held : List (Nat × Fin NBUF)
  pinned : List (Fin NBUF)
  /-- ghost: the buffers from `head.next` to `head.prev` -/
  order : List (Fin NBUF)
  /-- ghost: when each buffer last went in at `head.next` -/
  stamp : Fin NBUF → Nat
  /-- ghost: the time of the next such move -/
  clock : Nat

/-- What a call leads to. -/
inductive LinkOutcome where
  | next (s : LinkSys)
  /-- The call is not one the kernel makes in this state. -/
  | blocked
  | panic (msg : String)

namespace LinkSys

/-- `brelse(b)` by `p`, with the ghost state moved the way the pointers move. -/
def release (s : LinkSys) (p : Nat) (b : Fin NBUF) : LinkSys :=
  let freed := ((s.cache.brelse b).buf b).refcnt = 0
  { s with
    cache := s.cache.brelse b
    held := s.held.erase (p, b)
    order := if freed then b :: s.order.erase b else s.order
    stamp := if freed then Function.update s.stamp b s.clock else s.stamp
    clock := if freed then s.clock + 1 else s.clock }

/-- One call, as `BioSys.step` makes it. -/
def step (s : LinkSys) (disk : Disk) : BioEvent → LinkOutcome
  | .bread p dev blockno =>
      match s.cache.bread disk dev blockno with
      | some (b, c) => .next { s with cache := c, held := (p, b) :: s.held }
      | none => .panic "bget: no buffers"
  | .brelse p b => if s.held.contains (p, b) then .next (s.release p b) else .blocked
  | .bpin p b =>
      if s.held.contains (p, b) then .next { s with cache := s.cache.bpin b, pinned := b :: s.pinned } else .blocked
  | .bunpin b =>
      if s.pinned.contains b then .next { s with cache := s.cache.bunpin b, pinned := s.pinned.erase b } else .blocked

/-- After `binit`, which put `buf[0]` in at `head.next` first. -/
def boot : LinkSys where
  cache := LCache.binit
  held := []
  pinned := []
  order := (List.finRange NBUF).reverse
  stamp := fun b => b.val
  clock := NBUF

/-- The states a run of calls from `binit` reaches. -/
inductive Reachable (disk : Disk) : LinkSys → Prop
  | boot : Reachable disk boot
  | step {s s' : LinkSys} (e : BioEvent) : Reachable disk s → s.step disk e = .next s' → Reachable disk s'

/-- The list-level state the pointer-level one stands for. -/
def abs (s : LinkSys) : BioSys := ⟨⟨s.cache.buf, s.order⟩, s.held, s.pinned⟩

/-- The pointers trace the ghost list, which runs from the buffer put in at
`head.next` last to the one put in first. -/
structure Inv (s : LinkSys) : Prop where
  refines : s.cache.Refines ⟨s.cache.buf, s.order⟩
  recent : s.order.Pairwise fun a b => s.stamp b < s.stamp a
  past : ∀ b, s.stamp b < s.clock

theorem inv_boot : boot.Inv where
  refines := LCache.refines_binit
  recent := by
    -- `binit`'s list is the buffers in decreasing order
    simp only [boot, List.pairwise_reverse]
    exact (List.pairwise_lt_finRange NBUF).imp fun lt => lt
  past b := b.isLt

section Steps

variable {s : LinkSys}

theorem exists_of_rel_some {α β : Type} {R : α → β → Prop} {a : α} {y : Option β} (rel : Option.Rel R (some a) y) :
    ∃ b, y = some b ∧ R a b := by
  cases rel with
  | some related => exact ⟨_, rfl, related⟩

/-- The list-level `brelse` on the ghost list. -/
theorem abs_brelse (p : Nat) (b : Fin NBUF) :
    (⟨s.cache.buf, s.order⟩ : BCache).brelse b = ⟨(s.release p b).cache.buf, (s.release p b).order⟩ := by
  simp only [BCache.brelse, release, LCache.brelse_buf, BCache.set_buf_self, LCache.set_buf_self]
  split_ifs <;> rfl

/-- A `brelse` that frees `b` moves it to the front with the newest stamp;
the rest keep their order and stamps. -/
theorem Inv.release (inv : s.Inv) (p : Nat) (b : Fin NBUF) : (s.release p b).Inv := by
  have moved := inv.refines.brelse b
  rw [abs_brelse p] at moved
  refine ⟨moved, ?_, fun b' => ?_⟩
  · by_cases freed : ((s.cache.brelse b).buf b).refcnt = 0
    · simp only [LinkSys.release, if_pos freed]
      refine List.pairwise_cons.mpr ⟨fun b' mem => ?_, ?_⟩
      · -- `b` is newest
        have other : b' ≠ b := fun same => inv.refines.nodup.not_mem_erase (same ▸ mem)
        rw [Function.update_self, Function.update_of_ne other]
        exact inv.past b'
      · -- the others keep their order and stamps
        refine List.Pairwise.imp_of_mem (fun {x y} inX inY older => ?_) (inv.recent.sublist List.erase_sublist)
        have outX : x ≠ b := fun same => inv.refines.nodup.not_mem_erase (same ▸ inX)
        have outY : y ≠ b := fun same => inv.refines.nodup.not_mem_erase (same ▸ inY)
        rwa [Function.update_of_ne outX, Function.update_of_ne outY]
    · simp only [LinkSys.release, if_neg freed]
      exact inv.recent
  · have before := inv.past b'
    by_cases freed : ((s.cache.brelse b).buf b).refcnt = 0
    · simp only [LinkSys.release, if_pos freed]
      by_cases same : b' = b
      · rw [same, Function.update_self]
        omega
      · rw [Function.update_of_ne same]
        omega
    · simp only [LinkSys.release, if_neg freed]
      exact before

/-- Each step of the pointer-level cache is the list-level step on the list
it stands for, and keeps the invariant. -/
theorem abs_step {disk : Disk} {e : BioEvent} {s' : LinkSys} (inv : s.Inv) (stepped : s.step disk e = .next s') :
    s.abs.step disk e = .next s'.abs ∧ s'.Inv := by
  cases e with
  | bread p dev blockno =>
    simp only [step] at stepped
    rcases got : s.cache.bread disk dev blockno with _ | ⟨b, c⟩ <;> rw [got] at stepped
    · cases stepped
    · cases stepped
      -- the list-level `bread` returns the same buffer, over the ghost list
      have rel := inv.refines.bread disk dev blockno
      rw [got] at rel
      obtain ⟨⟨b', ⟨buf', order'⟩⟩, listGot, same, r⟩ := exists_of_rel_some rel
      dsimp only at same r
      subst same
      have order : order' = s.order := (BCache.bread_spec listGot).2.2
      have buf : buf' = c.buf := r.buf.symm
      subst order buf
      refine ⟨?_, r, inv.recent, inv.past⟩
      show BioSys.step ⟨⟨s.cache.buf, s.order⟩, s.held, s.pinned⟩ disk (.bread p dev blockno) = _
      rw [BioSys.step, listGot]
      rfl
  | brelse p b =>
    simp only [step] at stepped
    split at stepped
    · rename_i holds
      cases stepped
      refine ⟨?_, inv.release p b⟩
      show BioSys.step ⟨⟨s.cache.buf, s.order⟩, s.held, s.pinned⟩ disk (.brelse p b) = _
      rw [BioSys.step, if_pos (List.contains_iff_mem.mp holds), abs_brelse p]
      rfl
    · cases stepped
  | bpin p b =>
    simp only [step] at stepped
    split at stepped
    · rename_i holds
      cases stepped
      refine ⟨?_, inv.refines.bpin b, inv.recent, inv.past⟩
      show BioSys.step ⟨⟨s.cache.buf, s.order⟩, s.held, s.pinned⟩ disk (.bpin p b) = _
      rw [BioSys.step, if_pos (List.contains_iff_mem.mp holds)]
      rfl
    · cases stepped
  | bunpin b =>
    simp only [step] at stepped
    split at stepped
    · rename_i pinned
      cases stepped
      refine ⟨?_, inv.refines.bunpin b, inv.recent, inv.past⟩
      show BioSys.step ⟨⟨s.cache.buf, s.order⟩, s.held, s.pinned⟩ disk (.bunpin b) = _
      rw [BioSys.step, if_pos (List.contains_iff_mem.mp pinned)]
      rfl
    · cases stepped

end Steps

/-- Every reachable pointer-level state keeps the invariant and stands for a
reachable list-level state. -/
theorem reachable_abs {disk : Disk} {s : LinkSys} (reach : s.Reachable disk) :
    s.Inv ∧ s.abs.Reachable disk := by
  induction reach with
  | boot => exact ⟨inv_boot, .boot⟩
  | step e _ stepped ih =>
    obtain ⟨sim, inv'⟩ := abs_step ih.1 stepped
    exact ⟨inv', .step e ih.2 sim⟩

/-! ## What every reachable state has -/

section Reachable

variable {s : LinkSys}

/-- The ghost list holds each of the `NBUF` buffers once. -/
theorem Inv.length_order (inv : s.Inv) : s.order.length = NBUF := by
  have all : s.order.toFinset = Finset.univ :=
    Finset.eq_univ_iff_forall.mpr fun b => List.mem_toFinset.mpr (inv.refines.listed b)
  have counted := List.toFinset_card_of_nodup inv.refines.nodup
  rw [all, Finset.card_univ, Fintype.card_fin] at counted
  exact counted.symm

/-- The walk from `head.prev` searches the ghost list from its end. -/
theorem Inv.victim_eq (inv : s.Inv) :
    s.cache.victim = s.order.reverse.find? fun b => (s.cache.buf b).refcnt == 0 :=
  inv.refines.victim

/-- The walk from `head.prev` finds no free buffer only when every buffer is in use. -/
theorem Inv.victim_eq_none (inv : s.Inv) : s.cache.victim = none ↔ ∀ b, 0 < (s.cache.buf b).refcnt := by
  rw [inv.victim_eq, List.find?_eq_none]
  constructor
  · intro none b
    have := none b (List.mem_reverse.mpr (inv.refines.listed b))
    simp only [beq_iff_eq] at this
    omega
  · intro used b _
    simp only [beq_iff_eq]
    exact Nat.pos_iff_ne_zero.mp (used b)

/-- The free buffer the walk from `head.prev` finds is the one put in at
`head.next` longest ago. -/
theorem Inv.victim_oldest (inv : s.Inv) {b : Fin NBUF} (found : s.cache.victim = some b) :
    (s.cache.buf b).refcnt = 0 ∧ ∀ b', b' ≠ b → (s.cache.buf b').refcnt = 0 → s.stamp b < s.stamp b' := by
  rw [inv.victim_eq, List.find?_eq_some_iff_append] at found
  obtain ⟨free, later, earlier, split, passed⟩ := found
  -- the list is `earlier.reverse ++ b :: later.reverse`; the walk passed `later` first
  have order : s.order = earlier.reverse ++ b :: later.reverse := by
    rw [← List.reverse_reverse s.order, split]
    simp
  refine ⟨by simpa using free, fun b' other unused => ?_⟩
  have listed := inv.refines.listed b'
  rw [order, List.mem_append, List.mem_cons, List.mem_reverse, List.mem_reverse] at listed
  rcases listed with newer | rfl | walked
  · have recent := inv.recent
    rw [order, List.pairwise_append] at recent
    exact recent.2.2 b' (List.mem_reverse.mpr newer) b List.mem_cons_self
  · exact absurd rfl other
  · have := passed b' walked
    simp [unused] at this

/-- `bget` of a block no buffer caches: the free buffer put in at `head.next`
longest ago, and a panic only when every buffer is in use. -/
theorem Inv.bget_uncached (inv : s.Inv) {dev blockno : Nat} (uncached : s.cache.lookup dev blockno = none) :
    (s.cache.bget dev blockno = none ↔ ∀ b, 0 < (s.cache.buf b).refcnt) ∧
      ∀ b c, s.cache.bget dev blockno = some (b, c) →
        (s.cache.buf b).refcnt = 0 ∧ ∀ b', b' ≠ b → (s.cache.buf b').refcnt = 0 → s.stamp b < s.stamp b' := by
  unfold LCache.bget
  rw [uncached, ← inv.victim_eq_none]
  rcases found : s.cache.victim with _ | b
  · exact ⟨iff_of_true rfl rfl, fun _ _ got => by cases got⟩
  · refine ⟨iff_of_false (fun got => by cases got) (fun got => by cases got), fun b' c got => ?_⟩
    cases got
    exact inv.victim_oldest found

/-- A reference held and a pin are both counted in `refcnt`. -/
theorem refcnt_pos {disk : Disk} (reach : s.Reachable disk) :
    (∀ p b, (p, b) ∈ s.held → 0 < (s.cache.buf b).refcnt) ∧ ∀ b ∈ s.pinned, 0 < (s.cache.buf b).refcnt := by
  have counted := (BioSys.reachable_inv (reachable_abs reach).2).counted
  refine ⟨fun p b holds => ?_, fun b pinned => ?_⟩
  · rw [show s.cache.buf = s.abs.cache.buf from rfl, counted b, BioSys.refs]
    have : 0 < s.held.countP fun h => decide (h.2 = b) := List.countP_pos_iff.mpr ⟨(p, b), holds, by simp⟩
    exact Nat.lt_add_right _ this
  · rw [show s.cache.buf = s.abs.cache.buf from rfl, counted b, BioSys.refs]
    exact Nat.lt_add_left _ (List.count_pos_iff.mpr pinned)

/-- For every run of `bread`, `brelse`, `bpin` and `bunpin` from `binit` in
which `brelse` and `bunpin` give back a reference held: the pointers form
one circle through the head and every buffer once, on which `next` and `prev`
undo each other; `refcnt` is positive where `brelse` or `bunpin` take one
away; `brelse` moves the buffer to `head.next` exactly when its `refcnt`
drops to 0; and `bget` of an uncached block takes the free buffer put in at
`head.next` longest ago, panicking only when every buffer is in use. -/
theorem bcache_links {disk : Disk} (reach : s.Reachable disk) :
    (∀ x, s.cache.links.next (s.cache.links.prev x) = x ∧ s.cache.links.prev (s.cache.links.next x) = x) ∧
      (s.order.Nodup ∧ (∀ b, b ∈ s.order) ∧
        ∀ i ≤ NBUF, s.cache.links.next^[i] (s.cache.links.next none) = s.order[i]?) ∧
      (∀ p b, (p, b) ∈ s.held → 0 < (s.cache.buf b).refcnt) ∧
      (∀ b ∈ s.pinned, 0 < (s.cache.buf b).refcnt) ∧
      (∀ p b, ((s.release p b).cache.buf b).refcnt = 0 →
        (s.release p b).cache.links.next none = some b ∧ (s.release p b).order = b :: s.order.erase b) ∧
      (∀ p b, ((s.release p b).cache.buf b).refcnt ≠ 0 →
        (s.release p b).cache.links = s.cache.links ∧ (s.release p b).order = s.order) ∧
      ∀ dev blockno, s.cache.lookup dev blockno = none →
        (s.cache.bget dev blockno = none ↔ ∀ b, 0 < (s.cache.buf b).refcnt) ∧
        ∀ b c, s.cache.bget dev blockno = some (b, c) →
          (s.cache.buf b).refcnt = 0 ∧ ∀ b', b' ≠ b → (s.cache.buf b').refcnt = 0 → s.stamp b < s.stamp b' := by
  have inv := (reachable_abs reach).1
  have r := inv.refines
  obtain ⟨held, pinned⟩ := refcnt_pos reach
  refine ⟨fun x => r.links.next_prev r.nodup fun a _ => r.listed a, ⟨r.nodup, r.listed, ?_⟩, held, pinned,
    fun p b freed => ?_, fun p b kept => ?_, fun dev blockno uncached => inv.bget_uncached uncached⟩
  · intro i le
    exact r.links.iterate_next r.nodup i (by show i ≤ s.order.length; rw [inv.length_order]; exact le)
  · -- the unlinked buffer is pushed back in right after the head
    change ((s.cache.brelse b).buf b).refcnt = 0 at freed
    have dropped : (s.cache.buf b).refcnt - 1 = 0 := by rwa [LCache.refcnt_brelse] at freed
    show (s.cache.brelse b).links.next none = some b ∧
      (if ((s.cache.brelse b).buf b).refcnt = 0 then b :: s.order.erase b else s.order) = b :: s.order.erase b
    rw [LCache.links_brelse, if_pos dropped, pushFront_next, if_pos rfl, if_pos freed]
    exact ⟨rfl, rfl⟩
  · change ((s.cache.brelse b).buf b).refcnt ≠ 0 at kept
    have stays : ¬ (s.cache.buf b).refcnt - 1 = 0 := by rwa [LCache.refcnt_brelse] at kept
    show (s.cache.brelse b).links = s.cache.links ∧
      (if ((s.cache.brelse b).buf b).refcnt = 0 then b :: s.order.erase b else s.order) = s.order
    rw [LCache.links_brelse, if_neg stays, if_neg kept]
    exact ⟨rfl, rfl⟩

/-- A run from `binit`: process 1 reads block 5 into buffer 0, the one at
`head.prev`, and pins it; process 2 reads block 6 into buffer 1 and releases
it, which moves buffer 1 to `head.next`.  A read of block 7 then passes over
the pinned buffer 0 and takes buffer 2. -/
theorem bcache_links_relinked :
    ∃ s : LinkSys, s.Reachable (fun _ => Block.zero) ∧ s.cache.links.next none = some ⟨1, by decide⟩ ∧
      (s.cache.bget ROOTDEV 7).map Prod.fst = some ⟨2, by decide⟩ ∧
      (∀ x, s.cache.links.next (s.cache.links.prev x) = x ∧ s.cache.links.prev (s.cache.links.next x) = x) ∧
      (s.order.Nodup ∧ (∀ b, b ∈ s.order) ∧
        ∀ i ≤ NBUF, s.cache.links.next^[i] (s.cache.links.next none) = s.order[i]?) ∧
      (∀ p b, (p, b) ∈ s.held → 0 < (s.cache.buf b).refcnt) ∧
      (∀ b ∈ s.pinned, 0 < (s.cache.buf b).refcnt) ∧
      (∀ p b, ((s.release p b).cache.buf b).refcnt = 0 →
        (s.release p b).cache.links.next none = some b ∧ (s.release p b).order = b :: s.order.erase b) ∧
      (∀ p b, ((s.release p b).cache.buf b).refcnt ≠ 0 →
        (s.release p b).cache.links = s.cache.links ∧ (s.release p b).order = s.order) ∧
      ∀ dev blockno, s.cache.lookup dev blockno = none →
        (s.cache.bget dev blockno = none ↔ ∀ b, 0 < (s.cache.buf b).refcnt) ∧
        ∀ b c, s.cache.bget dev blockno = some (b, c) →
          (s.cache.buf b).refcnt = 0 ∧ ∀ b', b' ≠ b → (s.cache.buf b').refcnt = 0 → s.stamp b < s.stamp b' := by
  obtain ⟨s, reach, front, taken⟩ : ∃ s : LinkSys, s.Reachable (fun _ => Block.zero) ∧
      s.cache.links.next none = some ⟨1, by decide⟩ ∧ (s.cache.bget ROOTDEV 7).map Prod.fst = some ⟨2, by decide⟩ := by
    set_option maxRecDepth 2000 in
    exact ⟨_, .step (.brelse 2 ⟨1, by decide⟩) (.step (.bread 2 ROOTDEV 6) (.step (.bpin 1 ⟨0, by decide⟩)
        (.step (.bread 1 ROOTDEV 5) .boot rfl) rfl) rfl) rfl, rfl, rfl⟩
  exact ⟨s, reach, front, taken, bcache_links reach⟩

end Reachable

end LinkSys

end Xv6
