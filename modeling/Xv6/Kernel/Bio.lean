/-
# Kernel.Bio -- bio.c: the buffer cache, and who holds its buffers

`NBUF` buffers sit on a list ordered by last release (`BCache.order`, from
`head.next` to `head.prev`).  `bget` returns the buffer caching a block, or
recycles the least recently released buffer whose `refcnt` is zero, and panics
when there is none.  A buffer's `refcnt` counts the references to it: the
callers that got it from `bget`/`bread` and have not called `brelse`, and the
log's pins (`bpin` in `log_write`, `bunpin` in `install_trans`).

`BioSys` runs the cache together with those references, each held by a
process.  Its invariant (`BioSys.Inv`) is that every buffer is on the list and
its `refcnt` is exactly the number of references held on it.  So `bget` on an
uncached block panics only when every buffer is referenced, that is when the
references outstanding number at least `NBUF` (`bget_panic_needs_refs`).
Nothing in the kernel bounds that number below `NBUF`: thirty processes reading
thirty blocks outside any transaction, each asleep in `virtio_disk_rw` with its
buffer, leave the thirty-first reader no buffer (`thirty_one_readers`).
-/
import Xv6.Kernel.Param

namespace Xv6

set_option autoImplicit false

/-! ## bio.c -/

/-- `struct buf`, without its sleep-lock and the `disk` flag of the driver; its
`prev`/`next` links are the cache's `order`. -/
structure Buf where
  valid : Bool
  dev : Nat
  blockno : Nat
  refcnt : Nat
  data : Block

/-- `bcache`: the buffers and the list through `head`, most recently released first. -/
structure BCache where
  buf : Fin NBUF → Buf
  order : List (Fin NBUF)

namespace BCache

/-- Replace buffer `b`. -/
def set (c : BCache) (b : Fin NBUF) (v : Buf) : BCache := { c with buf := Function.update c.buf b v }

/-- `binit`: each buffer in turn is put at `head.next`, so the last is first.
The buffers start as the zeroed global array. -/
def binit : BCache :=
  { buf := fun _ => ⟨false, 0, 0, 0, Block.zero⟩, order := (List.finRange NBUF).reverse }

/-- The first buffer on the list caching `(dev, blockno)`. -/
def lookup (c : BCache) (dev blockno : Nat) : Option (Fin NBUF) :=
  c.order.find? fun b => (c.buf b).dev == dev && (c.buf b).blockno == blockno

/-- The least recently released buffer with `refcnt == 0`: the scan from `head.prev`. -/
def victim (c : BCache) : Option (Fin NBUF) :=
  c.order.reverse.find? fun b => (c.buf b).refcnt == 0

/-- `bget`: the cached buffer with one more reference, or a recycled one with
`refcnt = 1`; `none` is the panic `"bget: no buffers"`. -/
def bget (c : BCache) (dev blockno : Nat) : Option (Fin NBUF × BCache) :=
  match c.lookup dev blockno with
  | some b => some (b, c.set b { c.buf b with refcnt := (c.buf b).refcnt + 1 })
  | none =>
      match c.victim with
      | some b => some (b, c.set b { c.buf b with dev, blockno, valid := false, refcnt := 1 })
      | none => none

/-- `bread`: `bget`, then read the block from the disk if the buffer is not valid. -/
def bread (c : BCache) (disk : Disk) (dev blockno : Nat) : Option (Fin NBUF × BCache) :=
  (c.bget dev blockno).map fun (b, c) =>
    if (c.buf b).valid then (b, c) else (b, c.set b { c.buf b with data := disk blockno, valid := true })

/-- `brelse`: drop a reference; the buffer moves to `head.next` when none is left. -/
def brelse (c : BCache) (b : Fin NBUF) : BCache :=
  let released := c.set b { c.buf b with refcnt := (c.buf b).refcnt - 1 }
  if (released.buf b).refcnt = 0 then { released with order := b :: released.order.erase b }
  else released

/-- `bpin`. -/
def bpin (c : BCache) (b : Fin NBUF) : BCache := c.set b { c.buf b with refcnt := (c.buf b).refcnt + 1 }

/-- `bunpin`. -/
def bunpin (c : BCache) (b : Fin NBUF) : BCache := c.set b { c.buf b with refcnt := (c.buf b).refcnt - 1 }

@[simp] theorem set_buf_self (c : BCache) (b : Fin NBUF) (v : Buf) : (c.set b v).buf b = v := by
  simp [set]

theorem set_buf_of_ne (c : BCache) {b b' : Fin NBUF} (v : Buf) (ne : b' ≠ b) :
    (c.set b v).buf b' = c.buf b' := by
  simp [set, ne]

@[simp] theorem set_order (c : BCache) (b : Fin NBUF) (v : Buf) : (c.set b v).order = c.order := rfl

/-! ## What each call does to a buffer's `refcnt` -/

/-- `bget` adds a reference to the buffer it returns, and touches no other
buffer and not the list. -/
theorem bget_spec {c c' : BCache} {dev blockno : Nat} {b : Fin NBUF}
    (got : c.bget dev blockno = some (b, c')) :
    (c'.buf b).refcnt = (c.buf b).refcnt + 1 ∧ (∀ b', b' ≠ b → c'.buf b' = c.buf b') ∧
      c'.order = c.order := by
  unfold bget at got
  rcases found : c.lookup dev blockno with _ | hit
  · rw [found] at got
    rcases free : c.victim with _ | v
    · rw [free] at got
      cases got
    · rw [free] at got
      cases got
      have zero : (c.buf b).refcnt = 0 := by
        simpa using List.find?_some free
      refine ⟨by simp [zero], fun b' ne => set_buf_of_ne _ _ ne, rfl⟩
  · rw [found] at got
    cases got
    exact ⟨by simp, fun b' ne => set_buf_of_ne _ _ ne, rfl⟩

/-- `bget` panics only when every buffer on the list has a reference. -/
theorem bget_none {c : BCache} {dev blockno : Nat} (panics : c.bget dev blockno = none) :
    ∀ b ∈ c.order, (c.buf b).refcnt ≠ 0 := by
  unfold bget at panics
  rcases found : c.lookup dev blockno with _ | hit
  · rw [found] at panics
    rcases free : c.victim with _ | v
    · intro b mem zero
      have := List.find?_eq_none.mp free b (List.mem_reverse.mpr mem)
      simp [zero] at this
    · rw [free] at panics
      cases panics
  · rw [found] at panics
    cases panics

theorem bread_spec {c c' : BCache} {disk : Disk} {dev blockno : Nat} {b : Fin NBUF}
    (got : c.bread disk dev blockno = some (b, c')) :
    (c'.buf b).refcnt = (c.buf b).refcnt + 1 ∧ (∀ b', b' ≠ b → c'.buf b' = c.buf b') ∧
      c'.order = c.order := by
  unfold bread at got
  rcases fetched : c.bget dev blockno with _ | ⟨b₀, c₀⟩
  · rw [fetched] at got
    cases got
  rw [fetched] at got
  obtain ⟨count, others, order⟩ := bget_spec fetched
  simp only [Option.map_some, Option.some.injEq] at got
  split at got
  · cases got
    exact ⟨count, others, order⟩
  · cases got
    refine ⟨by simp [count], fun b' ne => ?_, order⟩
    rw [set_buf_of_ne _ _ ne, others b' ne]

/-- `brelse` and `bunpin` take a reference away, and keep every buffer on the list. -/
theorem brelse_spec (c : BCache) (b : Fin NBUF) :
    ((c.brelse b).buf b).refcnt = (c.buf b).refcnt - 1 ∧
      (∀ b', b' ≠ b → (c.brelse b).buf b' = c.buf b') ∧
      (∀ b', b' ∈ c.order → b' ∈ (c.brelse b).order) := by
  unfold brelse
  dsimp only
  split
  · refine ⟨by simp, fun b' ne => set_buf_of_ne _ _ ne, fun b' mem => ?_⟩
    by_cases same : b' = b
    · simp [same]
    · exact List.mem_cons_of_mem _ ((List.mem_erase_of_ne same).mpr mem)
  · exact ⟨by simp, fun b' ne => set_buf_of_ne _ _ ne, fun b' mem => mem⟩

theorem bpin_spec (c : BCache) (b : Fin NBUF) :
    ((c.bpin b).buf b).refcnt = (c.buf b).refcnt + 1 ∧
      (∀ b', b' ≠ b → (c.bpin b).buf b' = c.buf b') ∧ (c.bpin b).order = c.order :=
  ⟨by simp [bpin], fun b' ne => set_buf_of_ne _ _ ne, rfl⟩

theorem bunpin_spec (c : BCache) (b : Fin NBUF) :
    ((c.bunpin b).buf b).refcnt = (c.buf b).refcnt - 1 ∧
      (∀ b', b' ≠ b → (c.bunpin b).buf b' = c.buf b') ∧ (c.bunpin b).order = c.order :=
  ⟨by simp [bunpin], fun b' ne => set_buf_of_ne _ _ ne, rfl⟩

end BCache

/-! ## The cache and the references processes hold -/

/-- The cache with every reference in flight: `held` lists the buffers each
process got from `bread` and has not released, `pinned` the log's pins. -/
structure BioSys where
  cache : BCache
  held : List (Nat × Fin NBUF)
  pinned : List (Fin NBUF)

/-- A buffer-cache call by process `p`. -/
inductive BioEvent where
  | bread (p dev blockno : Nat)
  | brelse (p : Nat) (b : Fin NBUF)
  /-- `log_write` pins a buffer its caller holds. -/
  | bpin (p : Nat) (b : Fin NBUF)
  /-- `install_trans` drops a pin. -/
  | bunpin (b : Fin NBUF)

/-- What a call leads to. -/
inductive BioOutcome where
  | next (s : BioSys)
  /-- The call is not one the kernel makes in this state. -/
  | blocked
  | panic (msg : String)

namespace BioSys

/-- One call, reading blocks from `disk`.  `brelse` and `bpin` need the caller
to hold the buffer, `bunpin` a pin to drop. -/
def step (s : BioSys) (disk : Disk) : BioEvent → BioOutcome
  | .bread p dev blockno =>
      match s.cache.bread disk dev blockno with
      | some (b, c) => .next { s with cache := c, held := (p, b) :: s.held }
      | none => .panic "bget: no buffers"
  | .brelse p b =>
      if (p, b) ∈ s.held then .next { s with cache := s.cache.brelse b, held := s.held.erase (p, b) }
      else .blocked
  | .bpin p b =>
      if (p, b) ∈ s.held then .next { s with cache := s.cache.bpin b, pinned := b :: s.pinned }
      else .blocked
  | .bunpin b =>
      if b ∈ s.pinned then .next { s with cache := s.cache.bunpin b, pinned := s.pinned.erase b }
      else .blocked

/-- Calls in order, up to the first that is blocked or panics. -/
def run (s : BioSys) (disk : Disk) : List BioEvent → BioOutcome
  | [] => .next s
  | e :: es =>
      match s.step disk e with
      | .next s' => s'.run disk es
      | outcome => outcome

/-- The cache after `binit`, with no reference taken. -/
def boot : BioSys := ⟨BCache.binit, [], []⟩

/-- The references held on buffer `b`. -/
def refs (s : BioSys) (b : Fin NBUF) : Nat := s.held.countP (fun h => h.2 = b) + s.pinned.count b

/-- Every buffer is on the list, and its `refcnt` counts the references held on it. -/
structure Inv (s : BioSys) : Prop where
  listed : ∀ b, b ∈ s.cache.order
  counted : ∀ b, (s.cache.buf b).refcnt = s.refs b

/-- The states a run of calls from `binit` reaches. -/
inductive Reachable (disk : Disk) : BioSys → Prop
  | boot : Reachable disk boot
  | step {s s' : BioSys} (e : BioEvent) : Reachable disk s → s.step disk e = .next s' →
      Reachable disk s'

theorem inv_boot : boot.Inv where
  listed := fun b => by simp [boot, BCache.binit]
  counted := fun b => by simp [boot, BCache.binit, refs]

private theorem countP_of_mem {α : Type} [BEq α] [LawfulBEq α] {l : List α} {x : α} (mem : x ∈ l)
    (q : α → Bool) : l.countP q = (l.erase x).countP q + if q x then 1 else 0 := by
  rw [(List.perm_cons_erase mem).countP_eq, List.countP_cons]

private theorem count_of_mem {α : Type} [BEq α] [LawfulBEq α] {l : List α} {x : α} (mem : x ∈ l)
    (a : α) : l.count a = (l.erase x).count a + if (x == a) = true then 1 else 0 := by
  rw [(List.perm_cons_erase mem).count_eq, List.count_cons]

/-- Each call keeps the invariant: a call that adds or drops a reference on a
buffer moves its `refcnt` by one in the same direction. -/
theorem inv_step {s s' : BioSys} {disk : Disk} {e : BioEvent} (inv : s.Inv)
    (stepped : s.step disk e = .next s') : s'.Inv := by
  cases e with
  | bread p dev blockno =>
      simp only [step] at stepped
      rcases got : s.cache.bread disk dev blockno with _ | ⟨b, c⟩ <;> rw [got] at stepped <;>
        cases stepped
      obtain ⟨count, others, order⟩ := BCache.bread_spec got
      refine ⟨fun b' => order ▸ inv.listed b', fun b' => ?_⟩
      by_cases same : b' = b
      · subst same
        simp [refs, count, inv.counted b', Nat.add_right_comm]
      · simp [refs, others b' same, inv.counted b', Ne.symm same]
  | brelse p b =>
      simp only [step] at stepped
      split at stepped
      · rename_i holds
        cases stepped
        obtain ⟨count, others, listed⟩ := BCache.brelse_spec s.cache b
        refine ⟨fun b' => listed b' (inv.listed b'), fun b' => ?_⟩
        have split := countP_of_mem holds (fun h => decide (h.2 = b'))
        have before := inv.counted b'
        simp only [refs] at before ⊢
        by_cases same : b' = b
        · subst same
          simp only [decide_true, if_true] at split
          rw [count, before, split]
          omega
        · simp only [Ne.symm same, decide_false, Bool.false_eq_true, if_false, Nat.add_zero] at split
          rw [others b' same, before, split]
      · cases stepped
  | bpin p b =>
      simp only [step] at stepped
      split at stepped
      · cases stepped
        obtain ⟨count, others, order⟩ := BCache.bpin_spec s.cache b
        refine ⟨fun b' => order ▸ inv.listed b', fun b' => ?_⟩
        by_cases same : b' = b
        · subst same
          simp [refs, count, inv.counted b', Nat.add_assoc]
        · simp [refs, others b' same, inv.counted b', Ne.symm same]
      · cases stepped
  | bunpin b =>
      simp only [step] at stepped
      split at stepped
      · rename_i pinned
        cases stepped
        obtain ⟨count, others, order⟩ := BCache.bunpin_spec s.cache b
        refine ⟨fun b' => order ▸ inv.listed b', fun b' => ?_⟩
        have split := count_of_mem pinned b'
        have before := inv.counted b'
        simp only [refs] at before ⊢
        by_cases same : b' = b
        · subst same
          simp only [beq_self_eq_true, if_true] at split
          rw [count, before, split]
          omega
        · simp only [beq_iff_eq, Ne.symm same, if_false, Nat.add_zero] at split
          rw [others b' same, before, split]
      · cases stepped

theorem reachable_inv {disk : Disk} {s : BioSys} (reach : s.Reachable disk) : s.Inv := by
  induction reach with
  | boot => exact inv_boot
  | step _ _ stepped reached => exact inv_step reached stepped

/-- The calls of a run, each one the kernel may make, lead from a reachable
state to a reachable state. -/
theorem reachable_run {disk : Disk} : ∀ {s s' : BioSys} (es : List BioEvent), s.Reachable disk →
    s.run disk es = .next s' → s'.Reachable disk
  | _, _, [], reach, ran => by
    cases ran
    exact reach
  | s, _, e :: es, reach, ran => by
    simp only [run] at ran
    cases stepped : s.step disk e with
    | next s₁ =>
      rw [stepped] at ran
      exact reachable_run es (.step e reach stepped) ran
    | blocked =>
      rw [stepped] at ran
      cases ran
    | panic msg =>
      rw [stepped] at ran
      cases ran

/-- A buffer with a reference appears among the references held. -/
theorem mem_refs_of_refcnt {s : BioSys} (inv : s.Inv) {b : Fin NBUF} (used : (s.cache.buf b).refcnt ≠ 0) :
    b ∈ s.held.map Prod.snd ++ s.pinned := by
  rw [inv.counted b, refs] at used
  rcases Nat.pos_of_ne_zero used |> Nat.add_pos_iff_pos_or_pos.mp with held | pinned
  · obtain ⟨h, mem, same⟩ := List.countP_pos_iff.mp held
    exact List.mem_append_left _ (List.mem_map.mpr ⟨h, mem, by simpa using same⟩)
  · exact List.mem_append_right _ (List.count_pos_iff.mp pinned)

/-- When every buffer is referenced, the references outstanding number at least `NBUF`. -/
theorem refs_ge_of_all_used {s : BioSys} (inv : s.Inv) (used : ∀ b, (s.cache.buf b).refcnt ≠ 0) :
    NBUF ≤ s.held.length + s.pinned.length := by
  have all : Finset.univ ⊆ (s.held.map Prod.snd ++ s.pinned).toFinset := by
    intro b _
    exact List.mem_toFinset.mpr (mem_refs_of_refcnt inv (used b))
  calc NBUF = (Finset.univ : Finset (Fin NBUF)).card := by simp
    _ ≤ (s.held.map Prod.snd ++ s.pinned).toFinset.card := Finset.card_le_card all
    _ ≤ (s.held.map Prod.snd ++ s.pinned).length := List.toFinset_card_le _
    _ = s.held.length + s.pinned.length := by simp

/-- When `bget` panics, the references outstanding number at least `NBUF`. -/
theorem bget_panic_needs_refs {disk : Disk} {s : BioSys} (reach : s.Reachable disk) {dev blockno : Nat}
    (panics : s.cache.bget dev blockno = none) : NBUF ≤ s.held.length + s.pinned.length := by
  have inv := reachable_inv reach
  exact refs_ge_of_all_used inv fun b => BCache.bget_none panics b (inv.listed b)

/-- The cache in every state a run of calls reaches: every buffer is on the
list, and its `refcnt` is the references outstanding on it, the buffers
`bread` returned that `brelse` has not taken back and the log's pins.  So with
fewer than `NBUF` references outstanding some buffer has `refcnt == 0` and
`bget` does not panic, whatever block it is asked for, and the panic needs
`NBUF` references. -/
theorem bget_free_of_few_refs {disk : Disk} {s : BioSys} (reach : s.Reachable disk) :
    (∀ b, b ∈ s.cache.order) ∧
      (∀ b, (s.cache.buf b).refcnt = s.held.countP (fun h => h.2 = b) + s.pinned.count b) ∧
      (s.held.length + s.pinned.length < NBUF →
        (∃ b, (s.cache.buf b).refcnt = 0) ∧ ∀ dev blockno, s.cache.bget dev blockno ≠ none) ∧
      (∀ dev blockno, s.cache.bget dev blockno = none → NBUF ≤ s.held.length + s.pinned.length) := by
  have inv := reachable_inv reach
  refine ⟨inv.listed, inv.counted, fun few => ⟨?_, fun dev blockno panics => ?_⟩,
    fun _ _ panics => bget_panic_needs_refs reach panics⟩
  · by_contra none
    simp only [not_exists] at none
    have := refs_ge_of_all_used inv none
    omega
  · have := bget_panic_needs_refs reach panics
    omega

/-- Process 1 reads block 5 and pins it for the log, process 2 reads block 6,
and process 1 releases block 5, which stays pinned: two references
outstanding, and the cache as the theorem says. -/
theorem bget_free_of_few_refs_pinned :
    ∃ s, boot.run (fun _ => Block.zero) [.bread 1 ROOTDEV 5, .bpin 1 ⟨0, by decide⟩, .bread 2 ROOTDEV 6, .brelse 1 ⟨0, by decide⟩] = .next s ∧
      s.held.length + s.pinned.length = 2 ∧ (s.cache.buf ⟨0, by decide⟩).refcnt = 1 ∧ (s.cache.buf ⟨1, by decide⟩).refcnt = 1 ∧
      (∀ b, b ∈ s.cache.order) ∧
      (∀ b, (s.cache.buf b).refcnt = s.held.countP (fun h => h.2 = b) + s.pinned.count b) ∧
      (s.held.length + s.pinned.length < NBUF →
        (∃ b, (s.cache.buf b).refcnt = 0) ∧ ∀ dev blockno, s.cache.bget dev blockno ≠ none) ∧
      (∀ dev blockno, s.cache.bget dev blockno = none → NBUF ≤ s.held.length + s.pinned.length) := by
  obtain ⟨s, ran, counts⟩ : ∃ s, boot.run (fun _ => Block.zero)
      [.bread 1 ROOTDEV 5, .bpin 1 ⟨0, by decide⟩, .bread 2 ROOTDEV 6, .brelse 1 ⟨0, by decide⟩] = .next s ∧
      s.held.length + s.pinned.length = 2 ∧ (s.cache.buf ⟨0, by decide⟩).refcnt = 1 ∧ (s.cache.buf ⟨1, by decide⟩).refcnt = 1 :=
    ⟨_, rfl, rfl, rfl, rfl⟩
  have reach := reachable_run _ .boot ran
  exact ⟨s, ran, counts.1, counts.2.1, counts.2.2, bget_free_of_few_refs reach⟩

/-- Thirty-one processes each read a different block outside any transaction.
The first thirty keep the buffer `bread` gave them (each is asleep in
`virtio_disk_rw`), so the thirty-first `bget` finds no buffer with
`refcnt == 0` and panics. -/
theorem thirty_one_readers :
    boot.run (fun _ => Block.zero) ((List.range 31).map fun i => .bread (i + 1) ROOTDEV (100 + i)) =
      .panic "bget: no buffers" := by
  rfl

end BioSys

end Xv6
