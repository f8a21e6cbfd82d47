import Cmpsc473.Channels.WaiterList

/-!
# Calls on a waiter list

The calls that are made on a list from its creation on, in any order, and the machine
that they refine: a sequence of nodes, each an address and the data it carries.
-/

namespace Cmpsc473
namespace Channels

open Total LinkedSegment Transition

variable {A : Type}

/-- A call.  An insertion has what `malloc` gives it. -/
inductive ListCall (A : Type)
  | insert (data : A) (r : Malloc (ListNode A))
  | find (data : A)
  | remove (node : Ptr)

inductive ListReply
  | done
  | node (p : Ptr)
deriving DecidableEq, Repr

/-- The nodes reached from the head of a list by `next`. -/
inductive Memory.Reached (m : Memory A) (list : Ptr) : Ptr → Prop
  | head {o : ListObject} : m.list list = some o → o.head ≠ 0 → m.Reached list o.head
  | next {p : Ptr} {n : ListNode A} : m.Reached list p → m.node p = some n → n.next ≠ 0 →
      m.Reached list n.next

namespace ListCall

variable [DecidableEq A]

def run (list : Ptr) : ListCall A → Lm A ListReply
  | insert d r => do
    listInsert list d r
    return .done
  | find d => do return .node (← listFind list d)
  | remove n => do
    listRemove list n
    return .done

/-- Allocations succeed, and what is removed is a node of the list. -/
def Allowed (list : Ptr) (m : Memory A) : ListCall A → Prop
  | insert _ r => r.addr ≠ 0 ∧ m.node r.addr = none
  | find _ => True
  | remove n => m.Reached list n

/-- What a call does to a sequence of nodes. -/
def sequence (q : List (Ptr × A)) : ListCall A → Option (ListReply × List (Ptr × A))
  | insert d r => some (.done, (r.addr, d) :: q)
  | find d => some (.node (found d q), q)
  | remove n => some (.done, q.filter fun e => e.1 ≠ n)

end ListCall

/-- One call on the list, with its result. -/
def ListStep [DecidableEq A] (list : Ptr) (m : Memory A) (l : ListCall A × ListReply)
    (m' : Memory A) : Prop :=
  l.1.Allowed list m ∧ l.1.run list m = some (l.2, m')

variable {m m' : Memory A} {list list' n p : Ptr} {q q' l r : List (Ptr × A)}

namespace Sequence

/-- The nodes reached from the head are those of the sequence. -/
theorem reached_iff (h : Sequence list m q) : m.Reached list p ↔ p ∈ addrs q := by
  constructor
  · intro hp
    induction hp with
    | head ho hne =>
      rw [h.object, Option.some.injEq] at ho
      rw [← ho] at hne ⊢
      exact headD_mem hne
    | @next x nx _ hn hne ih =>
      obtain ⟨l₁, l₂, hsplit⟩ := List.append_of_mem ih
      have hnext := (h.links_at hsplit).2
      unfold Memory.next at hnext
      rw [hn] at hnext
      have hx : nx.next = l₂.headD 0 := hnext
      rw [hx] at hne ⊢
      rw [hsplit]
      exact List.mem_append_right _ (List.mem_cons_of_mem _ (headD_mem hne))
  · intro hp
    obtain ⟨l₁, l₂, hsplit⟩ := List.append_of_mem hp
    -- one node at a time, from the head on
    induction l₁ using List.reverseRecOn generalizing p l₂ with
    | nil =>
      have hhead : (addrs q).headD 0 = p := by
        rw [hsplit]
        rfl
      exact hhead ▸ .head h.object (hhead ▸ h.ne_of_mem hp)
    | append_singleton l₁ x ih =>
      rw [List.append_assoc] at hsplit
      have hx : x ∈ addrs q := by
        rw [hsplit]
        exact List.mem_append_right _ List.mem_cons_self
      obtain ⟨a, ha⟩ := h.node hx
      have hnext : m.next x = p := (h.links_at hsplit).2
      exact hnext ▸ .next (ih hx _ hsplit) (Memory.node_eq ha) (hnext ▸ h.ne_of_mem hp)

/-- To take a node out by its address. -/
theorem filter_eq {d : A} (h : Sequence list m (l ++ (n, d) :: r)) :
    (l ++ (n, d) :: r).filter (fun e => e.1 ≠ n) = l ++ r := by
  have hkeep : ∀ e ∈ l ++ r, decide (e.1 ≠ n) = true := by
    intro e he
    have hmem : e.1 ∈ addrs l ++ addrs r := by
      rw [← List.map_append]
      exact List.mem_map_of_mem he
    exact decide_eq_true (h.mem_sides hmem).2
  rw [List.filter_append, List.filter_cons_of_neg (by simp), ← List.filter_append]
  exact List.filter_eq_self.mpr hkeep

theorem remove (h : Sequence list m q) (hn : n ∈ addrs q) :
    Returns (listRemove list n) m fun _ m' => Sequence list m' (q.filter fun e => e.1 ≠ n) ∧
      m'.node n = none ∧ Touches list (addrs q) m m' := by
  obtain ⟨⟨_, d⟩, he, rfl⟩ := List.mem_map.mp hn
  obtain ⟨l, r, rfl⟩ := List.append_of_mem he
  rw [h.filter_eq]
  exact h.remove_mid

/-- A list that a call does not touch stays as it is. -/
theorem frame {ps : List Ptr} (h : Sequence list' m q') (ht : Touches list ps m m')
    (hne : list' ≠ list) (hdisj : ∀ p ∈ addrs q', p ∉ ps) : Sequence list' m' q' := by
  have hnode : ∀ p ∈ addrs q', m'.node p = m.node p := fun p hp => ht.node p (hdisj p hp)
  refine { list_ne := h.list_ne, object := ?_, nodes := ?_, links := h.links.congr ?_ ?_ }
  · rw [ht.object _ hne, h.object]
  · intro e he
    unfold Memory.data
    rw [hnode e.1 (List.mem_map_of_mem he)]
    exact h.nodes e he
  · intro p hp
    unfold Memory.next
    rw [hnode p hp]
  · intro p hp
    unfold Memory.prev
    rw [hnode p hp]

theorem create {m₀ : Memory A} {r : Malloc ListObject} (hr : r.addr ≠ 0)
    (hfree : m₀.list r.addr = none) :
    Returns (listCreate r) m₀ fun list m => list = r.addr ∧ Sequence list m [] ∧
      Touches list [] m₀ m := by
  have hobj : ∀ l, (m₀.setList r.addr (some l)).list r.addr = some l := by
    intro l
    rw [Memory.setList_list, if_pos rfl]
  unfold listCreate
  rw [returns_bind, returns_of_eq (show mallocList r m₀ = _ by
    rw [mallocList, if_neg hr, if_pos hfree]), if_pos hr]
  simp only [returns_bind, returns_getList hr (hobj _), returns_putList hr (hobj _),
    Memory.setList_setList, returns_pure]
  refine ⟨trivial, { list_ne := hr, object := hobj _, nodes := ?_, links := trivial }, ?_⟩
  · exact fun _ he => absurd he List.not_mem_nil
  · exact (Touches.refl r.addr [] m₀).setList _

end Sequence

section Runs

variable [DecidableEq A]

/-- A call that is allowed returns, with the result that the sequence gives. -/
theorem Sequence.call (h : Sequence list m q) {c : ListCall A} (hc : c.Allowed list m) :
    ∃ reply q' m', c.run list m = some (reply, m') ∧ c.sequence q = some (reply, q') ∧
      Sequence list m' q' := by
  cases c with
  | insert d r =>
    obtain ⟨_, m', hx, hq, _⟩ := h.insert d hc.1 hc.2
    exact ⟨_, _, m', bind_of_some hx, rfl, hq⟩
  | find d => exact ⟨_, _, m, bind_of_some (h.find d), rfl, h⟩
  | remove n =>
    obtain ⟨_, m', hx, hq, _⟩ := h.remove (h.reached_iff.mp hc)
    exact ⟨_, _, m', bind_of_some hx, rfl, hq⟩

theorem refines_sequence (list : Ptr) :
    Refines (ListStep (A := A) list) some ListCall.sequence (Sequence list) where
  visible := by
    intro m q l m' c reply h hstep hl
    cases hl
    obtain ⟨reply', q', m'', hrun, hseq, h'⟩ := h.call hstep.1
    have hsame : some (reply', m'') = some (reply, m') := hrun.symm.trans hstep.2
    cases hsame
    exact ⟨q', hseq, h'⟩
  silent := by
    intro m q l m' _ _ hl
    cases hl

/-- The calls on one list leave another one as it is. -/
theorem run_other {m₁ : Memory A} {ls : List (ListCall A × ListReply)} (hne : list' ≠ list)
    (h : Sequence list m q) (h' : Sequence list' m q') (hdisj : ∀ p ∈ addrs q', p ∉ addrs q)
    (hrun : Run (ListStep list) m ls m₁) : Sequence list' m₁ q' := by
  let Inv : Memory A → Prop := fun m => ∃ q, Sequence list m q ∧ Sequence list' m q' ∧
    ∀ p ∈ addrs q', p ∉ addrs q
  have hstep : ∀ m c m₁, Inv m → ListStep list m c m₁ → Inv m₁ := by
    rintro m ⟨c, reply⟩ m₁ ⟨q, h, h', hdisj⟩ ⟨hc, hx⟩
    cases c with
    | insert d r =>
      obtain ⟨_, m₂, hx', hq, ht⟩ := h.insert d hc.1 hc.2
      cases (bind_of_some hx').symm.trans hx
      have hdisj' : ∀ p ∈ addrs q', p ∉ r.addr :: addrs q := by
        intro p hp
        refine List.mem_cons.not.mpr (not_or.mpr ⟨?_, hdisj p hp⟩)
        exact fun he => h'.ne_of_free hc.2 (he ▸ hp)
      exact ⟨_, hq, h'.frame ht hne hdisj', hdisj'⟩
    | find d =>
      cases (bind_of_some (h.find d)).symm.trans hx
      exact ⟨q, h, h', hdisj⟩
    | remove n =>
      obtain ⟨_, m₂, hx', hq, _, ht⟩ := h.remove (h.reached_iff.mp hc)
      cases (bind_of_some hx').symm.trans hx
      refine ⟨_, hq, h'.frame ht hne hdisj, ?_⟩
      exact fun p hp hmem => hdisj p hp (List.map_subset _ (List.filter_subset_self _) hmem)
  have hinv : Inv m₁ := hrun.invariant ⟨q, h, h', hdisj⟩ hstep
  obtain ⟨_, _, hother, _⟩ := hinv
  exact hother

/-- What the posts of `list_foreach` make of the value of a semaphore. -/
theorem foldl_post (as : List A) (m : Memory A) (a : A) :
    (as.foldl Memory.post m).value a = semPost^[as.count a] (m.value a) := by
  induction as generalizing m with
  | nil => rfl
  | cons b as ih =>
    rw [List.foldl_cons, ih]
    by_cases hab : b = a
    · rw [hab, List.count_cons_self, Function.iterate_succ_apply]
      congr 1
      exact Function.update_self a _ m.value
    · rw [List.count_cons_of_ne hab]
      congr 1
      exact Function.update_of_ne (Ne.symm hab) _ m.value

/-- What holds of a list that is the sequence `q`, and of the calls that may come next. -/
structure Faithful (list : Ptr) (m : Memory A) (q : List (Ptr × A)) : Prop where
  nodup : (addrs q).Nodup
  reached : ∀ p, m.Reached list p ↔ p ∈ addrs q
  sequence : Sequence list m q
  inverse : ∀ p ∈ addrs q, ∀ p' ∈ addrs q, m.next p = p' ↔ m.prev p' = p
  count : ∃ c, listCount list m = some (c, m) ∧ c.toNat = q.length
  insert : ∀ d (r : Malloc (ListNode A)), r.addr ≠ 0 → m.node r.addr = none →
    Returns (listInsert list d r) m fun _ m' =>
      Sequence list m' ((r.addr, d) :: q) ∧ Touches list (r.addr :: addrs q) m m'
  find : ∀ d, listFind list d m = some (found d q, m)
  find_null : ∀ d, found d q = 0 ↔ d ∉ q.map Prod.snd
  remove : ∀ n, m.Reached list n → Returns (listRemove list n) m fun _ m' =>
    Sequence list m' (q.filter fun e => e.1 ≠ n) ∧ m'.node n = none ∧
      Touches list (addrs q) m m'
  foreach : ∃ m', listForeach list m = some ((), m') ∧
    m' = (q.map Prod.snd).foldl Memory.post m ∧
    ∀ a, m'.value a = semPost^[(q.map Prod.snd).count a] (m.value a)

theorem Sequence.faithful (h : Sequence list m q) : Faithful list m q where
  nodup := h.nodup
  reached := fun _ => h.reached_iff
  sequence := h
  inverse := fun _ hp _ hp' => h.links.inverse h.zero_notMem h.zero_notMem hp hp'
  count := by
    refine ⟨UInt64.ofNat q.length, ?_, ?_⟩
    · apply eq_of_returns
      unfold listCount
      rw [returns_bind, returns_getList h.list_ne h.object]
      exact returns_pure.mpr ⟨rfl, rfl⟩
    · exact UInt64.toNat_ofNat_of_lt' h.length_lt
  insert := fun d _ hr hfree => h.insert d hr hfree
  find := h.find
  find_null := h.found_eq_zero
  remove := fun _ hn => h.remove (h.reached_iff.mp hn)
  foreach := ⟨_, h.foreach, rfl, fun a => foldl_post _ m a⟩

/-- **The waiter list is a sequence.** From the creation of a list on, whatever calls
are made on it, their results are those of a sequence of nodes, and memory holds that
sequence. -/
theorem list_is_sequence {m₀ : Memory A} {r : Malloc ListObject} (hr : r.addr ≠ 0)
    (hfree : m₀.list r.addr = none) :
    ∃ m₁, listCreate r m₀ = some (r.addr, m₁) ∧ ∀ ls m, Run (ListStep r.addr) m₁ ls m →
      ∃ q, exec ListCall.sequence [] (ls.map Prod.fst) = some (ls.map Prod.snd, q) ∧
        Faithful r.addr m q ∧
        ∀ c : ListCall A, c.Allowed r.addr m → ∃ reply m', ListStep r.addr m (c, reply) m' := by
  obtain ⟨_, m₁, hcreate, rfl, hstart, _⟩ := Sequence.create hr hfree
  refine ⟨m₁, hcreate, ?_⟩
  intro ls m hrun
  obtain ⟨q, hexec, hq⟩ := (refines_sequence r.addr).run hrun hstart
  unfold inputs outputs at hexec
  rw [List.filterMap_some] at hexec
  refine ⟨q, hexec, hq.faithful, ?_⟩
  intro c hc
  obtain ⟨reply, _, m', hx, _, _⟩ := hq.call hc
  exact ⟨reply, m', hc, hx⟩

theorem list_is_sequence_pair : ∃ m : Memory Nat,
    listFind 16 9 m = some (48, m) ∧ listFind 16 7 m = some (32, m) ∧
      listFind 16 8 m = some (0, m) := by
  let m₀ : Memory Nat := ⟨fun _ => none, fun _ => none, fun _ => 0⟩
  let first : ListCall Nat := .insert 7 ⟨32, ⟨0, 0, 0⟩⟩
  let second : ListCall Nat := .insert 9 ⟨48, ⟨0, 0, 0⟩⟩
  let m₁ := ((listCreate ⟨16, ⟨5, 5⟩⟩ m₀).get rfl).2
  let m₂ := ((first.run 16 m₁).get rfl).2
  let m₃ := ((second.run 16 m₂).get rfl).2
  have hfirst : ListStep 16 m₁ (first, .done) m₂ := ⟨⟨by decide, rfl⟩, rfl⟩
  have hsecond : ListStep 16 m₂ (second, .done) m₃ := ⟨⟨by decide, rfl⟩, rfl⟩
  obtain ⟨m, hcreate, hall⟩ :=
    list_is_sequence (r := ⟨16, ⟨5, 5⟩⟩) (by decide) (rfl : m₀.list 16 = none)
  have hm : listCreate ⟨16, ⟨5, 5⟩⟩ m₀ = some (16, m₁) := rfl
  cases hm.symm.trans hcreate
  obtain ⟨q, hexec, hq, _⟩ := hall _ _ (((Run.nil m₁).snoc hfirst).snoc hsecond)
  cases hexec
  exact ⟨m₃, hq.find 9, hq.find 7, hq.find 8⟩

end Runs

namespace Sequence

/-- `list_begin`, `list_next` and `list_data` go through the sequence. -/
theorem iterate {d : A} (h : Sequence list m (l ++ (n, d) :: r)) :
    listBegin list m = some ((addrs (l ++ (n, d) :: r)).headD 0, m) ∧
      listNext n m = some ((addrs r).headD 0, m) ∧ listData n m = some (some d, m) := by
  have hmem : (n, d) ∈ l ++ (n, d) :: r := List.mem_append_right l List.mem_cons_self
  obtain ⟨hn0, hdata⟩ := h.nodes (n, d) hmem
  have hnode := Memory.node_eq hdata
  have hnext := (h.links_at (List.map_append : addrs _ = addrs l ++ n :: addrs r)).2
  refine ⟨?_, ?_, ?_⟩
  · apply eq_of_returns
    unfold listBegin
    rw [returns_bind, returns_getList h.list_ne h.object]
    exact returns_pure.mpr ⟨rfl, rfl⟩
  · apply eq_of_returns
    unfold listNext
    rw [if_pos hn0, returns_bind, returns_getNode hn0 hnode]
    exact returns_pure.mpr ⟨hnext, rfl⟩
  · apply eq_of_returns
    unfold listData
    rw [if_pos hn0, returns_bind, returns_getNode hn0 hnode]
    exact returns_pure.mpr ⟨rfl, rfl⟩

theorem foldl_free (ps : List Ptr) (m : Memory A) :
    (∀ p, (ps.foldl (fun m p => m.setNode p none) m).node p =
      if p ∈ ps then none else m.node p) ∧
      (ps.foldl (fun m p => m.setNode p none) m).list = m.list ∧
      (ps.foldl (fun m p => m.setNode p none) m).value = m.value := by
  induction ps generalizing m with
  | nil => exact ⟨fun _ => (if_neg List.not_mem_nil).symm, rfl, rfl⟩
  | cons x ps ih =>
    obtain ⟨hnode, hlist, hvalue⟩ := ih (m.setNode x none)
    refine ⟨?_, hlist, hvalue⟩
    intro p
    rw [List.foldl_cons, hnode p, Memory.setNode_node]
    by_cases hp : p ∈ ps
    · rw [if_pos hp, if_pos (List.mem_cons_of_mem x hp)]
    · by_cases hpx : p = x
      · rw [if_neg hp, if_pos hpx, if_pos (hpx ▸ List.mem_cons_self)]
      · rw [if_neg hp, if_neg hpx, if_neg (List.mem_cons.not.mpr (not_or.mpr ⟨hpx, hp⟩))]

/-- `list_destroy` frees each node once, and the list. -/
theorem destroy (h : Sequence list m q) : Returns (listDestroy list) m fun _ m' =>
    (∀ p ∈ addrs q, m'.node p = none) ∧ m'.list list = none ∧ Touches list (addrs q) m m' := by
  obtain ⟨hnode, hlist, hvalue⟩ := foldl_free (addrs q) m
  have hobj := h.object
  rw [← hlist] at hobj
  unfold listDestroy
  rw [returns_bind, returns_getList h.list_ne h.object, returns_bind]
  refine (listDestroyLoop_returns h.nodes h.links h.nodup h.length_lt_rounds).mpr ?_
  rw [returns_of_eq (show freeList list _ = some ((), _) by
    rw [freeList, if_neg h.list_ne, if_neg (by rw [hobj]; nofun)])]
  refine ⟨?_, ?_, ?_⟩
  · intro p hp
    rw [Memory.setList_node, hnode p, if_pos hp]
  · rw [Memory.setList_list, if_pos rfl]
  · refine { node := ?_, object := ?_, value := hvalue }
    · intro p hp
      rw [Memory.setList_node, hnode p, if_neg hp]
    · intro p hp
      rw [Memory.setList_list, if_neg hp, hlist]

end Sequence

/-! ## The lists of a channel

A channel has the semaphores that wait for it, in the order of the sequence: `channel_select`
puts its own in and takes it out, and the others post all of them. -/

section Waiters

variable [DecidableEq A]

/-- `if (list_find(list, &local) == NULL) list_insert(list, &local)` -/
def registerWaiter (list : Ptr) (addr : A) (r : Malloc (ListNode A)) : Lm A Unit := do
  if (← listFind list addr) = 0 then listInsert list addr r

/-- `node = list_find(list, &local); if (node) list_remove(list, node)` -/
def unregisterWaiter (list : Ptr) (addr : A) : Lm A Unit := do
  let node ← listFind list addr
  if node ≠ 0 then listRemove list node

/-- `if (list_count(list) > 0) list_foreach(list)` -/
def postWaiters (list : Ptr) : Lm A Unit := do
  if (← listCount list) > 0 then listForeach list

namespace Sequence

variable {d : A}

theorem register (h : Sequence list m q) (d : A) (r : Malloc (ListNode A))
    (hfree : r.addr ≠ 0 → m.node r.addr = none) :
    Returns (registerWaiter list d r) m fun _ m' => ∃ q', Sequence list m' q' ∧
      q'.map Prod.snd = if d ∈ q.map Prod.snd ∨ r.addr = 0 then q.map Prod.snd
        else d :: q.map Prod.snd := by
  unfold registerWaiter
  have hfound := h.found_eq_zero d
  rw [returns_bind, returns_of_eq (h.find d), returns_ite]
  by_cases hd : d ∈ q.map Prod.snd
  · rw [if_neg (fun h0 => hfound.mp h0 hd), if_pos (Or.inl hd), returns_pure]
    exact ⟨q, h, rfl⟩
  · rw [if_pos (hfound.mpr hd)]
    by_cases hr : r.addr = 0
    · have hfail := h.insert_fails d r.contents
      rw [← hr] at hfail
      rw [if_pos (Or.inr hr)]
      exact ⟨(), m, hfail, q, h, rfl⟩
    · rw [if_neg (not_or.mpr ⟨hd, hr⟩)]
      exact (h.insert d hr (hfree hr)).mono fun _ _ hq => ⟨_, hq.1, rfl⟩

/-- To take out the node that is found first is to take out the first of the data. -/
theorem erase_found (h : Sequence list m q) (hd : d ∈ q.map Prod.snd) :
    found d q ∈ addrs q ∧
      (q.filter fun e => e.1 ≠ found d q).map Prod.snd = (q.map Prod.snd).erase d := by
  have hne := (h.found_eq_zero d).not.mpr (not_not.mpr hd)
  unfold found at hne ⊢
  cases hf : q.find? fun e => e.2 = d with
  | none =>
    rw [hf] at hne
    exact absurd rfl hne
  | some e =>
    obtain ⟨he, l, r, rfl, hl⟩ := List.find?_eq_some_iff_append.mp hf
    have hed : e.2 = d := of_decide_eq_true he
    have hnot : d ∉ l.map Prod.snd := by
      intro hmem
      obtain ⟨e', he', hd'⟩ := List.mem_map.mp hmem
      simpa [hd'] using hl e' he'
    show e.1 ∈ addrs (l ++ e :: r) ∧ (List.filter (fun e' => e'.1 ≠ e.1) (l ++ e :: r)).map _ = _
    refine ⟨List.mem_map_of_mem (List.mem_append_right l List.mem_cons_self), ?_⟩
    rw [h.filter_eq, List.map_append, List.map_append, List.map_cons, hed,
      List.erase_append_right _ hnot, List.erase_cons_head]

theorem unregister (h : Sequence list m q) (d : A) :
    Returns (unregisterWaiter list d) m fun _ m' => ∃ q', Sequence list m' q' ∧
      q'.map Prod.snd = (q.map Prod.snd).erase d := by
  unfold unregisterWaiter
  rw [returns_bind, returns_of_eq (h.find d), returns_ite]
  by_cases hd : d ∈ q.map Prod.snd
  · obtain ⟨hmem, herase⟩ := h.erase_found hd
    rw [if_pos (h.ne_of_mem hmem)]
    exact (h.remove hmem).mono fun _ _ hq => ⟨_, hq.1, herase⟩
  · rw [if_neg (not_not.mpr ((h.found_eq_zero d).mpr hd)), returns_pure]
    exact ⟨q, h, (List.erase_of_not_mem hd).symm⟩

/-- The test of the count spares no one a post. -/
theorem notify (h : Sequence list m q) :
    postWaiters list m = some ((), (q.map Prod.snd).foldl Memory.post m) := by
  obtain ⟨c, hcount, hc⟩ := h.faithful.count
  apply eq_of_returns
  unfold postWaiters
  rw [returns_bind, returns_of_eq hcount, returns_ite]
  by_cases hpos : c > 0
  · rw [if_pos hpos, returns_of_eq h.foreach]
    exact ⟨rfl, rfl⟩
  · have hzero : q.length = 0 := by
      rw [gt_iff_lt, UInt64.lt_iff_toNat_lt] at hpos
      rw [← hc]
      exact Nat.eq_zero_of_not_pos hpos
    rw [if_neg hpos, returns_pure, List.eq_nil_of_length_eq_zero hzero]
    exact ⟨rfl, rfl⟩

end Sequence

end Waiters

end Channels
end Cmpsc473
