import Cmpsc473.Channels.LinkedList
import Cmpsc473.Library.LinkedSegment
import Cmpsc473.Library.Transition
import Mathlib.Data.Fintype.Card

/-!
# Waiter lists as sequences

Whatever calls are made on a list, memory holds a sequence of nodes, linked both ways
and counted, and each call does to it what is done to a list of pairs of an address and
its data: `list_insert` puts a pair in front, `list_find` looks for the first with the
data, `list_remove` takes the one with the address out.
-/

namespace Cmpsc473
namespace Channels

open Total LinkedSegment Transition

variable {A : Type} {m m' : Memory A} {list n p x y : Ptr} {q l r : List (Ptr × A)}

/-- The addresses of a sequence of nodes. -/
abbrev addrs (q : List (Ptr × A)) : List Ptr := q.map Prod.fst

namespace Memory

/-- The `next` of the node at `p`. -/
def next (m : Memory A) (p : Ptr) : Ptr := ((m.node p).map ListNode.next).getD 0

/-- The `prev` of the node at `p`. -/
def prev (m : Memory A) (p : Ptr) : Ptr := ((m.node p).map ListNode.prev).getD 0

/-- The data of the node at `p`, if there is a node. -/
def data (m : Memory A) (p : Ptr) : Option A := (m.node p).map ListNode.data

/-- What is before `y` points on to it: the node `x`, or the list when `x` is NULL. -/
def linkNext (m : Memory A) (list x y : Ptr) : Memory A :=
  if x = 0 then m.setList list ((m.list list).map fun l => { l with head := y })
  else m.setNode x ((m.node x).map fun n => { n with next := y })

/-- The node `y`, if it is not NULL, points back to `x`. -/
def linkPrev (m : Memory A) (x y : Ptr) : Memory A :=
  if y = 0 then m else m.setNode y ((m.node y).map fun n => { n with prev := x })

theorem linkNext_node (hp : p ≠ 0) : (m.linkNext list x y).node p =
    if p = x then (m.node p).map fun n => { n with next := y } else m.node p := by
  unfold linkNext
  by_cases hx : x = 0
  · rw [if_pos hx, hx, if_neg hp]
    rfl
  · rw [if_neg hx, setNode_node]
    by_cases hpx : p = x
    · rw [if_pos hpx, if_pos hpx, hpx]
    · rw [if_neg hpx, if_neg hpx]

theorem linkPrev_node (hp : p ≠ 0) : (m.linkPrev x y).node p =
    if p = y then (m.node p).map fun n => { n with prev := x } else m.node p := by
  unfold linkPrev
  by_cases hy : y = 0
  · rw [if_pos hy, hy, if_neg hp]
  · rw [if_neg hy, setNode_node]
    by_cases hpy : p = y
    · rw [if_pos hpy, if_pos hpy, hpy]
    · rw [if_neg hpy, if_neg hpy]

@[simp] theorem linkPrev_list : (m.linkPrev x y).list = m.list := by
  unfold linkPrev
  split <;> rfl

theorem setNode_views (hp : p ≠ n) (v : Option (ListNode A)) :
    (m.setNode n v).data p = m.data p ∧ (m.setNode n v).next p = m.next p ∧
      (m.setNode n v).prev p = m.prev p := by
  unfold data next prev
  rw [setNode_node, if_neg hp]
  exact ⟨rfl, rfl, rfl⟩

theorem linkNext_data (hp : p ≠ 0) : (m.linkNext list x y).data p = m.data p := by
  unfold data
  rw [linkNext_node hp]
  split
  · cases m.node p <;> rfl
  · rfl

theorem linkNext_prev (hp : p ≠ 0) : (m.linkNext list x y).prev p = m.prev p := by
  unfold prev
  rw [linkNext_node hp]
  split
  · cases m.node p <;> rfl
  · rfl

theorem linkNext_next (hp : p ≠ 0) {a : A} (ha : m.data p = some a) :
    (m.linkNext list x y).next p = if p = x then y else m.next p := by
  unfold next
  rw [linkNext_node hp]
  obtain ⟨n, hn, _⟩ := Option.map_eq_some_iff.mp ha
  rw [hn]
  split <;> rfl

theorem linkPrev_data (hp : p ≠ 0) : (m.linkPrev x y).data p = m.data p := by
  unfold data
  rw [linkPrev_node hp]
  split
  · cases m.node p <;> rfl
  · rfl

theorem linkPrev_next (hp : p ≠ 0) : (m.linkPrev x y).next p = m.next p := by
  unfold next
  rw [linkPrev_node hp]
  split
  · cases m.node p <;> rfl
  · rfl

theorem linkPrev_prev (hp : p ≠ 0) {a : A} (ha : m.data p = some a) :
    (m.linkPrev x y).prev p = if p = y then x else m.prev p := by
  unfold prev
  rw [linkPrev_node hp]
  obtain ⟨n, hn, _⟩ := Option.map_eq_some_iff.mp ha
  rw [hn]
  split <;> rfl

theorem node_eq {a : A} (ha : m.data p = some a) : m.node p = some ⟨m.next p, m.prev p, a⟩ := by
  unfold next prev
  obtain ⟨n, hn, rfl⟩ := Option.map_eq_some_iff.mp ha
  rw [hn]
  rfl

end Memory

section Links

variable {d : A} {o : ListObject} {Q : Unit → Memory A → Prop}

theorem setPrevNext_returns (hlist : list ≠ 0) (ho : m.list list = some o) (hn : n ≠ 0)
    (hnode : m.node n = some ⟨y, x, d⟩) (hx : x ≠ 0 → ∃ nx, m.node x = some nx) :
    Returns (setPrevNext list n) m Q ↔ Q () (m.linkNext list x y) := by
  unfold setPrevNext Memory.linkNext
  rw [returns_bind, returns_getNode hn hnode, returns_ite]
  by_cases hx0 : x = 0
  · rw [if_neg (not_not.mpr hx0), if_pos hx0]
    simp only [returns_bind, returns_getList hlist ho, returns_getNode hn hnode,
      returns_putList hlist ho]
    rw [ho]
    rfl
  · obtain ⟨nx, hnx⟩ := hx hx0
    rw [if_pos hx0, if_neg hx0]
    simp only [returns_bind, returns_getNode hn hnode, returns_getNode hx0 hnx,
      returns_putNode hx0 hnx]
    rw [hnx]
    rfl

theorem setNextPrev_returns (hn : n ≠ 0) (hnode : m.node n = some ⟨y, x, d⟩)
    (hy : y ≠ 0 → ∃ ny, m.node y = some ny) :
    Returns (setNextPrev n) m Q ↔ Q () (m.linkPrev x y) := by
  unfold setNextPrev Memory.linkPrev
  rw [returns_bind, returns_getNode hn hnode, returns_ite]
  by_cases hy0 : y = 0
  · rw [if_neg (not_not.mpr hy0), if_pos hy0, returns_pure]
  · obtain ⟨ny, hny⟩ := hy hy0
    rw [if_pos hy0, if_neg hy0]
    simp only [returns_bind, returns_getNode hn hnode, returns_getNode hy0 hny,
      returns_putNode hy0 hny]
    rw [hny]
    rfl

theorem setHeadPrev_returns (hlist : list ≠ 0) (ho : m.list list = some o)
    (hy : o.head ≠ 0 → ∃ ny, m.node o.head = some ny) :
    Returns (setHeadPrev list n) m Q ↔ Q () (m.linkPrev n o.head) := by
  unfold setHeadPrev Memory.linkPrev
  rw [returns_bind, returns_getList hlist ho, returns_ite]
  by_cases hy0 : o.head = 0
  · rw [if_neg (not_not.mpr hy0), if_pos hy0, returns_pure]
  · obtain ⟨ny, hny⟩ := hy hy0
    rw [if_pos hy0, if_neg hy0]
    simp only [returns_bind, returns_getList hlist ho, returns_getNode hy0 hny,
      returns_putNode hy0 hny]
    rw [hny]
    rfl

end Links

/-- Memory holds the nodes `q` in order, from the head of the list on: they are linked both
ways, with NULL at both ends, and counted. -/
structure Sequence (list : Ptr) (m : Memory A) (q : List (Ptr × A)) : Prop where
  list_ne : list ≠ 0
  object : m.list list = some ⟨(addrs q).headD 0, UInt64.ofNat q.length⟩
  nodes : ∀ e ∈ q, e.1 ≠ 0 ∧ m.data e.1 = some e.2
  links : Seg m.next m.prev 0 (addrs q) 0

namespace Sequence

theorem zero_notMem (h : Sequence list m q) : (0 : Ptr) ∉ addrs q := by
  intro h0
  obtain ⟨e, he, he0⟩ := List.mem_map.mp h0
  exact (h.nodes e he).1 he0

theorem nodup (h : Sequence list m q) : (addrs q).Nodup := h.links.nodup h.zero_notMem

/-- There are fewer nodes than addresses, so the count has not wrapped. -/
theorem length_lt (h : Sequence list m q) : q.length < 2 ^ 64 := by
  have hnd : ((0 :: addrs q).map UInt64.toFin).Nodup :=
    (List.nodup_cons.mpr ⟨h.zero_notMem, h.nodup⟩).map (fun _ _ => UInt64.toFin_inj.mp)
  have hlen := hnd.length_le_card
  rw [List.length_map, List.length_cons, List.length_map, Fintype.card_fin] at hlen
  exact hlen

theorem length_lt_rounds (h : Sequence list m q) : q.length < walkRounds := by
  unfold walkRounds
  exact h.length_lt

theorem ne_of_mem (h : Sequence list m q) (hp : p ∈ addrs q) : p ≠ 0 := fun h0 =>
  h.zero_notMem (h0 ▸ hp)

theorem node (h : Sequence list m q) (hp : p ∈ addrs q) : ∃ a, m.data p = some a := by
  obtain ⟨e, he, rfl⟩ := List.mem_map.mp hp
  exact ⟨e.2, (h.nodes e he).2⟩

/-- A node points to its neighbours. -/
theorem links_at (h : Sequence list m q) {before after : List Ptr}
    (hq : addrs q = before ++ p :: after) :
    m.prev p = before.getLastD 0 ∧ m.next p = after.headD 0 := by
  have hseg := h.links
  rw [hq] at hseg
  exact hseg.at_mid

end Sequence

/-! ## Insertion -/

/-- What `list_insert` does to memory, with a node granted at `n`. -/
def Memory.inserted (m : Memory A) (list n head : Ptr) (count : UInt64) (d : A) : Memory A :=
  ((m.setNode n (some ⟨head, 0, d⟩)).linkPrev n head).setList list (some ⟨n, count + 1⟩)

namespace Memory

variable (list n head : Ptr) (count : UInt64) (d : A)

theorem inserted_self (hn : n ≠ 0) (hne : n ≠ head) :
    (m.inserted list n head count d).node n = some ⟨head, 0, d⟩ := by
  show ((m.setNode n _).linkPrev n head).node n = _
  rw [linkPrev_node hn, if_neg hne, setNode_node, if_pos rfl]

/-- The node that was the first points back to the new one. -/
theorem inserted_old (hp : p ≠ 0) (hpn : p ≠ n) {a : A} (ha : m.data p = some a) :
    (m.inserted list n head count d).data p = some a ∧
      (m.inserted list n head count d).next p = m.next p ∧
      (m.inserted list n head count d).prev p = if p = head then n else m.prev p := by
  obtain ⟨hdata, hnext, hprev⟩ := setNode_views (m := m) hpn (some ⟨head, 0, d⟩)
  refine ⟨(linkPrev_data hp).trans (hdata.trans ha), (linkPrev_next hp).trans hnext, ?_⟩
  rw [← hprev]
  exact linkPrev_prev hp (hdata.trans ha)

end Memory

theorem listInsert_returns {o : ListObject} (hlist : list ≠ 0) (ho : m.list list = some o) {d : A}
    {r : Malloc (ListNode A)} (hr : r.addr ≠ 0) (hfree : m.node r.addr = none)
    (hhead : o.head ≠ 0 → ∃ n, m.node o.head = some n) {Q : Unit → Memory A → Prop} :
    Returns (listInsert list d r) m Q ↔ Q () (m.inserted list r.addr o.head o.count d) := by
  have hnode : ∀ n, (m.setNode r.addr n).node r.addr = n := by
    intro n
    rw [Memory.setNode_node, if_pos rfl]
  have hy : ∀ n, o.head ≠ 0 → ∃ ny, (m.setNode r.addr n).node o.head = some ny := by
    intro n h0
    obtain ⟨ny, hny⟩ := hhead h0
    have hne : o.head ≠ r.addr := by
      intro he
      rw [he, hfree] at hny
      cases hny
    rw [Memory.setNode_node, if_neg hne]
    exact ⟨ny, hny⟩
  have ho₁ : ∀ n, (m.setNode r.addr n).list list = some o := fun _ => ho
  have ho₂ : ∀ n, ((m.setNode r.addr n).linkPrev r.addr o.head).list list = some o := by
    intro n
    rw [Memory.linkPrev_list]
    exact ho
  have ho₃ : ∀ (m : Memory A) l, (m.setList list (some l)).list list = some l := by
    intro m l
    rw [Memory.setList_list, if_pos rfl]
  unfold listInsert
  rw [if_neg hlist, returns_bind, returns_mallocNode hr hfree, if_neg hr]
  simp only [returns_bind, returns_getNode hr (hnode _), returns_putNode hr (hnode _),
    Memory.setNode_setNode, returns_getList hlist (ho₁ _), setHeadPrev_returns hlist (ho₁ _) (hy _),
    returns_getList hlist (ho₂ _), returns_putList hlist (ho₂ _), returns_getList hlist (ho₃ _ _),
    returns_putList hlist (ho₃ _ _), Memory.setList_setList]
  rfl

/-- Nothing has changed but the list object, and nodes at `ps`. -/
structure Touches (list : Ptr) (ps : List Ptr) (m m' : Memory A) : Prop where
  node : ∀ p, p ∉ ps → m'.node p = m.node p
  object : ∀ p, p ≠ list → m'.list p = m.list p
  value : m'.value = m.value

namespace Touches

variable {ps : List Ptr}

theorem refl (list : Ptr) (ps : List Ptr) (m : Memory A) : Touches list ps m m :=
  ⟨fun _ _ => rfl, fun _ _ => rfl, rfl⟩

theorem setNode (h : Touches list ps m m') (hn : n ∈ ps) (v : Option (ListNode A)) :
    Touches list ps m (m'.setNode n v) where
  node := by
    intro p hp
    have hpn : p ≠ n := fun he => hp (he ▸ hn)
    rw [Memory.setNode_node, if_neg hpn, h.node p hp]
  object := h.object
  value := h.value

theorem setList (h : Touches list ps m m') (o : Option ListObject) :
    Touches list ps m (m'.setList list o) where
  node := h.node
  object := by
    intro p hp
    rw [Memory.setList_list, if_neg hp, h.object p hp]
  value := h.value

theorem linkPrev (h : Touches list ps m m') (hy : y ≠ 0 → y ∈ ps) :
    Touches list ps m (m'.linkPrev x y) := by
  unfold Memory.linkPrev
  by_cases hy0 : y = 0
  · rw [if_pos hy0]
    exact h
  · rw [if_neg hy0]
    exact h.setNode (hy hy0) _

theorem linkNext (h : Touches list ps m m') (hx : x ≠ 0 → x ∈ ps) :
    Touches list ps m (m'.linkNext list x y) := by
  unfold Memory.linkNext
  by_cases hx0 : x = 0
  · rw [if_pos hx0]
    exact h.setList _
  · rw [if_neg hx0]
    exact h.setNode (hx hx0) _

end Touches

namespace Sequence

theorem ne_of_free (h : Sequence list m q) (hn : m.node n = none) : n ∉ addrs q := by
  intro hp
  obtain ⟨a, ha⟩ := h.node hp
  unfold Memory.data at ha
  rw [hn] at ha
  cases ha

theorem inserted (h : Sequence list m q) (d : A) (hn0 : n ≠ 0) (hn : m.node n = none) :
    Sequence list (m.inserted list n ((addrs q).headD 0) (UInt64.ofNat q.length) d)
      ((n, d) :: q) := by
  have hfree := h.ne_of_free hn
  have hhead : n ≠ (addrs q).headD 0 := by
    intro he
    rw [he] at hfree hn0
    exact hfree (headD_mem hn0)
  have hself := Memory.inserted_self (m := m) list n _ (UInt64.ofNat q.length) d hn0 hhead
  have hold : ∀ p ∈ addrs q, ∀ a, m.data p = some a → _ := fun p hp a ha =>
    Memory.inserted_old list n ((addrs q).headD 0) (UInt64.ofNat q.length) d (h.ne_of_mem hp)
      (fun he => hfree (he ▸ hp)) ha
  refine { list_ne := h.list_ne, object := ?_, nodes := ?_, links := ?_ }
  · unfold Memory.inserted
    rw [Memory.setList_list, if_pos rfl, List.length_cons, UInt64.ofNat_add]
    rfl
  · intro e he
    rcases List.mem_cons.mp he with rfl | he
    · refine ⟨hn0, ?_⟩
      unfold Memory.data
      rw [hself]
      rfl
    · obtain ⟨he0, ha⟩ := h.nodes e he
      exact ⟨he0, (hold e.1 (List.mem_map_of_mem he) e.2 ha).1⟩
  · have hseg : Seg m.next m.prev 0 ([] ++ addrs q) 0 := h.links
    refine hseg.insert (l := []) h.nodup ?_ ?_ nofun ?_ ?_ ?_
    · unfold Memory.next
      rw [hself]
      rfl
    · unfold Memory.prev
      rw [hself]
      rfl
    · intro p hp
      obtain ⟨a, ha⟩ := h.node (List.mem_of_mem_head? hp)
      rw [(hold p (List.mem_of_mem_head? hp) a ha).2.2, if_pos (eq_headD 0 hp)]
    · intro p hp _
      obtain ⟨a, ha⟩ := h.node hp
      exact (hold p hp a ha).2.1
    · intro p hp hnot
      obtain ⟨a, ha⟩ := h.node hp
      rw [(hold p hp a ha).2.2, if_neg (fun he => hnot (head?_of_eq (h.ne_of_mem hp) he))]

theorem insert (h : Sequence list m q) (d : A) {r : Malloc (ListNode A)} (hr : r.addr ≠ 0)
    (hfree : m.node r.addr = none) : Returns (listInsert list d r) m (fun _ m' =>
      Sequence list m' ((r.addr, d) :: q) ∧ Touches list (r.addr :: addrs q) m m') := by
  rw [listInsert_returns h.list_ne h.object hr hfree (fun h0 => by
    obtain ⟨a, ha⟩ := h.node (headD_mem h0)
    exact ⟨_, Memory.node_eq ha⟩)]
  have hnew := (Touches.refl list (r.addr :: addrs q) m).setNode List.mem_cons_self
    (some ⟨(addrs q).headD 0, 0, d⟩)
  have hback := hnew.linkPrev (x := r.addr) fun h0 => List.mem_cons_of_mem _ (headD_mem h0)
  exact ⟨h.inserted d hr hfree, hback.setList _⟩

/-- With no room for a node, `list_insert` does nothing. -/
theorem insert_fails (h : Sequence list m q) (d : A) (contents : ListNode A) :
    listInsert list d ⟨0, contents⟩ m = some ((), m) := by
  have hmalloc : mallocNode ⟨0, contents⟩ m = some (0, m) := if_pos rfl
  unfold listInsert
  rw [if_neg h.list_ne, bind_of_some hmalloc]
  rfl

end Sequence

/-! ## Removal -/

/-- What `list_remove` does to memory, for a node between `x` and `y`, either of which may
be NULL. -/
def Memory.without (m : Memory A) (list n x y head : Ptr) (count : UInt64) : Memory A :=
  (((m.linkNext list x y).linkPrev x y).setNode n none).setList list
    (some ⟨if x = 0 then y else head, count - 1⟩)

/-- The nodes on either side point past the removed one. -/
theorem Memory.without_other (list n x y head : Ptr) (count : UInt64) (hp : p ≠ 0) (hpn : p ≠ n)
    {a : A} (ha : m.data p = some a) :
    (m.without list n x y head count).data p = some a ∧
      (m.without list n x y head count).next p = (if p = x then y else m.next p) ∧
      (m.without list n x y head count).prev p = if p = y then x else m.prev p := by
  obtain ⟨hdata, hnext, hprev⟩ :=
    setNode_views (m := (m.linkNext list x y).linkPrev x y) hpn none
  have ha₁ : (m.linkNext list x y).data p = some a := (linkNext_data hp).trans ha
  refine ⟨hdata.trans ((linkPrev_data hp).trans ha₁), ?_, ?_⟩
  · exact hnext.trans ((linkPrev_next hp).trans (linkNext_next hp ha))
  · have hprev₁ : (m.linkNext list x y).prev p = m.prev p := linkNext_prev hp
    rw [← hprev₁]
    exact hprev.trans (linkPrev_prev hp ha₁)

theorem listRemove_returns {o : ListObject} (hlist : list ≠ 0) (ho : m.list list = some o) {d : A}
    (hn : n ≠ 0) (hnode : m.node n = some ⟨y, x, d⟩) (hxn : x ≠ n) (hyn : y ≠ n)
    (hx : x ≠ 0 → ∃ nx, m.node x = some nx) (hy : y ≠ 0 → ∃ ny, m.node y = some ny)
    {Q : Unit → Memory A → Prop} :
    Returns (listRemove list n) m Q ↔ Q () (m.without list n x y o.head o.count) := by
  have hnode₁ : (m.linkNext list x y).node n = some ⟨y, x, d⟩ := by
    rw [Memory.linkNext_node hn, if_neg hxn.symm, hnode]
  have hy₁ : y ≠ 0 → ∃ ny, (m.linkNext list x y).node y = some ny := by
    intro hy0
    obtain ⟨ny, hny⟩ := hy hy0
    rw [Memory.linkNext_node hy0, hny]
    split
    · exact ⟨_, rfl⟩
    · exact ⟨_, rfl⟩
  have hnode₂ : ((m.linkNext list x y).linkPrev x y).node n = some ⟨y, x, d⟩ := by
    rw [Memory.linkPrev_node hn, if_neg hyn.symm, hnode₁]
  have hlist₂ : (((m.linkNext list x y).linkPrev x y).setNode n none).list list =
      some ⟨if x = 0 then y else o.head, o.count⟩ := by
    rw [Memory.setNode_list, Memory.linkPrev_list]
    unfold Memory.linkNext
    by_cases hx0 : x = 0
    · rw [if_pos hx0, if_pos hx0, Memory.setList_list, if_pos rfl, ho]
      rfl
    · rw [if_neg hx0, if_neg hx0]
      exact ho
  unfold listRemove
  rw [if_neg (not_or.mpr ⟨hlist, hn⟩)]
  simp only [returns_bind, setPrevNext_returns hlist ho hn hnode hx,
    setNextPrev_returns hn hnode₁ hy₁, returns_freeNode hn hnode₂, returns_getList hlist hlist₂,
    returns_putList hlist hlist₂]
  rfl

namespace Sequence

variable {d : A}

/-- The nodes on either side of one of them. -/
theorem mem_sides (h : Sequence list m (l ++ (n, d) :: r)) (hp : p ∈ addrs l ++ addrs r) :
    p ∈ addrs (l ++ (n, d) :: r) ∧ p ≠ n := by
  have hnd := h.nodup
  rw [addrs, List.map_append, List.map_cons] at hnd ⊢
  obtain ⟨_, hndr, hdisj⟩ := List.nodup_append.mp hnd
  rcases List.mem_append.mp hp with hp | hp
  · exact ⟨List.mem_append_left _ hp, hdisj p hp n List.mem_cons_self⟩
  · refine ⟨List.mem_append_right _ (List.mem_cons_of_mem _ hp), ?_⟩
    rintro rfl
    exact (List.nodup_cons.mp hndr).1 hp

theorem head_without (h : Sequence list m (l ++ (n, d) :: r)) :
    (if (addrs l).getLastD 0 = 0 then (addrs r).headD 0
      else (addrs (l ++ (n, d) :: r)).headD 0) = (addrs (l ++ r)).headD 0 := by
  cases l with
  | nil => rfl
  | cons e l =>
    have hlast : (addrs (e :: l)).getLastD 0 ∈ addrs (e :: l) := by
      rw [addrs, List.map_cons, List.getLastD_cons]
      exact List.getLastD_mem_cons
    rw [if_neg (h.ne_of_mem (h.mem_sides (List.mem_append_left _ hlast)).1)]
    rfl

theorem without (h : Sequence list m (l ++ (n, d) :: r)) :
    Sequence list (m.without list n ((addrs l).getLastD 0) ((addrs r).headD 0)
      ((addrs (l ++ (n, d) :: r)).headD 0) (UInt64.ofNat (l ++ (n, d) :: r).length))
      (l ++ r) := by
  have hsplit : addrs (l ++ (n, d) :: r) = addrs l ++ n :: addrs r := List.map_append
  have hjoin : addrs (l ++ r) = addrs l ++ addrs r := List.map_append
  have hseg : Seg m.next m.prev 0 (addrs l ++ n :: addrs r) 0 := hsplit ▸ h.links
  have hnd : (addrs l ++ addrs r).Nodup :=
    (hsplit ▸ h.nodup).sublist ((List.sublist_cons_self n _).append_left _)
  have hold : ∀ p ∈ addrs l ++ addrs r, ∀ a, m.data p = some a → _ := fun p hp a ha =>
    Memory.without_other list n ((addrs l).getLastD 0) ((addrs r).headD 0)
      ((addrs (l ++ (n, d) :: r)).headD 0) (UInt64.ofNat (l ++ (n, d) :: r).length)
      (h.ne_of_mem (h.mem_sides hp).1) (h.mem_sides hp).2 ha
  have hdata : ∀ p ∈ addrs l ++ addrs r, ∃ a, m.data p = some a := fun p hp =>
    h.node (h.mem_sides hp).1
  refine { list_ne := h.list_ne, object := ?_, nodes := ?_, links := ?_ }
  · unfold Memory.without
    rw [Memory.setList_list, if_pos rfl, h.head_without]
    have hlen : (l ++ (n, d) :: r).length = (l ++ r).length + 1 := by
      rw [List.length_append, List.length_append, List.length_cons, Nat.add_assoc]
    rw [hlen, UInt64.ofNat_add]
    simp
  · intro e he
    have hmem : e.1 ∈ addrs l ++ addrs r := hjoin ▸ List.mem_map_of_mem he
    have he' : e ∈ l ++ (n, d) :: r := by
      rcases List.mem_append.mp he with hl | hr
      · exact List.mem_append_left _ hl
      · exact List.mem_append_right _ (List.mem_cons_of_mem _ hr)
    obtain ⟨he0, ha⟩ := h.nodes e he'
    exact ⟨he0, (hold e.1 hmem e.2 ha).1⟩
  · rw [hjoin]
    refine hseg.remove hnd ?_ ?_ ?_ ?_
    · intro p hp
      have hmem := List.mem_append_left (addrs r) (List.mem_of_mem_getLast? hp)
      obtain ⟨a, ha⟩ := hdata p hmem
      rw [(hold p hmem a ha).2.1, if_pos (eq_getLastD 0 hp)]
    · intro p hp
      have hmem := List.mem_append_right (addrs l) (List.mem_of_mem_head? hp)
      obtain ⟨a, ha⟩ := hdata p hmem
      rw [(hold p hmem a ha).2.2, if_pos (eq_headD 0 hp)]
    · intro p hmem hnot
      obtain ⟨a, ha⟩ := hdata p hmem
      have hp0 : p ≠ 0 := h.ne_of_mem (h.mem_sides hmem).1
      rw [(hold p hmem a ha).2.1, if_neg (fun he => hnot (getLast?_of_eq hp0 he))]
    · intro p hmem hnot
      obtain ⟨a, ha⟩ := hdata p hmem
      have hp0 : p ≠ 0 := h.ne_of_mem (h.mem_sides hmem).1
      rw [(hold p hmem a ha).2.2, if_neg (fun he => hnot (head?_of_eq hp0 he))]

theorem remove_mid (h : Sequence list m (l ++ (n, d) :: r)) :
    Returns (listRemove list n) m fun _ m' => Sequence list m' (l ++ r) ∧ m'.node n = none ∧
      Touches list (addrs (l ++ (n, d) :: r)) m m' := by
  have hn : n ∈ addrs (l ++ (n, d) :: r) :=
    List.mem_map_of_mem (List.mem_append_right l List.mem_cons_self)
  have hn0 : n ≠ 0 := h.ne_of_mem hn
  obtain ⟨hprev, hnext⟩ := h.links_at (List.map_append : addrs _ = addrs l ++ n :: addrs r)
  have hdata : m.data n = some d := (h.nodes (n, d) (List.mem_append_right l List.mem_cons_self)).2
  have hnode := Memory.node_eq hdata
  rw [hprev, hnext] at hnode
  have hside : ∀ p ∈ addrs l ++ addrs r, ∃ np, m.node p = some np := by
    intro p hp
    obtain ⟨a, ha⟩ := h.node (h.mem_sides hp).1
    exact ⟨_, Memory.node_eq ha⟩
  rw [listRemove_returns h.list_ne h.object hn0 hnode]
  · have hbefore := (Touches.refl list (addrs (l ++ (n, d) :: r)) m).linkNext
      (x := (addrs l).getLastD 0) (y := (addrs r).headD 0) fun hx =>
        (h.mem_sides (List.mem_append_left _ (getLastD_mem hx))).1
    have hafter := hbefore.linkPrev (x := (addrs l).getLastD 0) (y := (addrs r).headD 0) fun hy =>
        (h.mem_sides (List.mem_append_right _ (headD_mem hy))).1
    refine ⟨h.without, ?_, (hafter.setNode hn none).setList _⟩
    show (Memory.setNode _ n none).node n = none
    rw [Memory.setNode_node, if_pos rfl]
  · intro he
    exact (h.mem_sides (List.mem_append_left _ (getLastD_mem (he ▸ hn0)))).2 he
  · intro he
    exact (h.mem_sides (List.mem_append_right _ (headD_mem (he ▸ hn0)))).2 he
  · exact fun hx => hside _ (List.mem_append_left _ (getLastD_mem hx))
  · exact fun hy => hside _ (List.mem_append_right _ (headD_mem hy))

end Sequence

/-- The first node with the data, or NULL. -/
def found [DecidableEq A] (d : A) (q : List (Ptr × A)) : Ptr :=
  ((q.find? fun e => e.2 = d).map Prod.fst).getD 0

section Walks

variable {rounds : Nat} {Q : Unit → Memory A → Prop}

/-- What a walk finds at a node, and what it has before it from there on. -/
theorem walk_cons {e : Ptr × A} (hnodes : ∀ e' ∈ e :: q, e'.1 ≠ 0 ∧ m.data e'.1 = some e'.2)
    (hlinks : Seg m.next m.prev p (addrs (e :: q)) 0) :
    e.1 ≠ 0 ∧ m.node e.1 = some ⟨(addrs q).headD 0, m.prev e.1, e.2⟩ ∧
      (∀ e' ∈ q, e'.1 ≠ 0 ∧ m.data e'.1 = some e'.2) ∧
      Seg m.next m.prev e.1 (addrs q) 0 := by
  obtain ⟨he0, hdata⟩ := hnodes e List.mem_cons_self
  obtain ⟨_, hnext, hrest⟩ := hlinks
  refine ⟨he0, ?_, fun e' he' => hnodes e' (List.mem_cons_of_mem _ he'), hrest⟩
  rw [← hnext]
  exact Memory.node_eq hdata

/-- The rounds of a walk that has more of them than there are nodes. -/
theorem exists_rounds {k : Nat} (h : k < rounds) : ∃ rounds', rounds = rounds' + 1 ∧ k ≤ rounds' :=
  ⟨rounds - 1, by omega, by omega⟩

theorem listFindLoop_returns [DecidableEq A] {d : A} {Q : Ptr → Memory A → Prop}
    (hnodes : ∀ e ∈ q, e.1 ≠ 0 ∧ m.data e.1 = some e.2) (hlinks : Seg m.next m.prev p (addrs q) 0)
    (hrounds : q.length < rounds) :
    Returns (listFindLoop d rounds ((addrs q).headD 0)) m Q ↔ Q (found d q) m := by
  induction q generalizing p rounds with
  | nil =>
    obtain ⟨rounds, rfl, _⟩ := exists_rounds hrounds
    exact returns_pure
  | cons e q ih =>
    obtain ⟨rounds, rfl, hlen⟩ := exists_rounds hrounds
    obtain ⟨he0, hnode, hrest, hseg⟩ := walk_cons hnodes hlinks
    show Returns (listFindLoop d (rounds + 1) e.1) m Q ↔ _
    rw [listFindLoop, if_pos he0, returns_bind, returns_getNode he0 hnode, returns_ite]
    by_cases hd : e.2 = d
    · rw [if_pos hd, returns_pure, found, List.find?_cons_of_pos (by simpa using hd)]
      rfl
    · rw [if_neg hd, returns_bind, returns_getNode he0 hnode, ih hrest hseg hlen, found, found,
        List.find?_cons_of_neg (by simpa using hd)]

theorem listForeachLoop_returns [DecidableEq A]
    (hnodes : ∀ e ∈ q, e.1 ≠ 0 ∧ m.data e.1 = some e.2) (hlinks : Seg m.next m.prev p (addrs q) 0)
    (hrounds : q.length < rounds) :
    Returns (listForeachLoop rounds ((addrs q).headD 0)) m Q ↔
      Q () ((q.map Prod.snd).foldl Memory.post m) := by
  induction q generalizing m p rounds with
  | nil =>
    obtain ⟨rounds, rfl, _⟩ := exists_rounds hrounds
    exact returns_pure
  | cons e q ih =>
    obtain ⟨rounds, rfl, hlen⟩ := exists_rounds hrounds
    obtain ⟨he0, hnode, hrest, hseg⟩ := walk_cons hnodes hlinks
    have hnode' : (m.post e.2).node e.1 = some ⟨(addrs q).headD 0, m.prev e.1, e.2⟩ := hnode
    show Returns (listForeachLoop (rounds + 1) e.1) m Q ↔ _
    rw [listForeachLoop, if_pos he0, returns_bind, returns_getNode he0 hnode, returns_bind,
      returns_of_eq (rfl : semPostAt e.2 m = some ((), m.post e.2)), returns_bind,
      returns_getNode he0 hnode']
    -- the links are those of before the post
    exact ih (m := m.post e.2) hrest hseg hlen

theorem listDestroyLoop_returns (hnodes : ∀ e ∈ q, e.1 ≠ 0 ∧ m.data e.1 = some e.2)
    (hlinks : Seg m.next m.prev p (addrs q) 0) (hnd : (addrs q).Nodup)
    (hrounds : q.length < rounds) :
    Returns (listDestroyLoop rounds ((addrs q).headD 0)) m Q ↔
      Q () ((addrs q).foldl (fun m p => m.setNode p none) m) := by
  induction q generalizing m p rounds with
  | nil =>
    obtain ⟨rounds, rfl, _⟩ := exists_rounds hrounds
    exact returns_pure
  | cons e q ih =>
    obtain ⟨rounds, rfl, hlen⟩ := exists_rounds hrounds
    obtain ⟨he0, hnode, hrest, hseg⟩ := walk_cons hnodes hlinks
    -- the nodes that are left are not the one that is freed
    have hviews : ∀ p ∈ addrs q, _ := fun p hp => Memory.setNode_views (m := m) (n := e.1)
      (fun he => (List.nodup_cons.mp hnd).1 (he ▸ hp)) none
    show Returns (listDestroyLoop (rounds + 1) e.1) m Q ↔ _
    rw [listDestroyLoop, if_pos he0, returns_bind, returns_getNode he0 hnode, returns_bind,
      returns_freeNode he0 hnode]
    refine ih (m := m.setNode e.1 none) ?_ (hseg.congr ?_ ?_) (List.nodup_cons.mp hnd).2 hlen
    · intro e' he'
      rw [(hviews e'.1 (List.mem_map_of_mem he')).1]
      exact hrest e' he'
    · exact fun p hp => (hviews p hp).2.1
    · exact fun p hp => (hviews p hp).2.2

end Walks

namespace Sequence

variable [DecidableEq A]

theorem find (h : Sequence list m q) (d : A) : listFind list d m = some (found d q, m) := by
  apply eq_of_returns
  unfold listFind
  rw [if_neg h.list_ne, returns_bind, returns_getList h.list_ne h.object]
  exact (listFindLoop_returns h.nodes h.links h.length_lt_rounds).mpr ⟨rfl, rfl⟩

theorem found_eq_zero (h : Sequence list m q) (d : A) : found d q = 0 ↔ d ∉ q.map Prod.snd := by
  unfold found
  cases hf : q.find? fun e => e.2 = d with
  | none =>
    refine iff_of_true rfl ?_
    intro hd
    obtain ⟨e, he, rfl⟩ := List.mem_map.mp hd
    simpa using List.find?_eq_none.mp hf e he
  | some e =>
    have hmem := List.mem_of_find?_eq_some hf
    have hd : e.2 = d := by simpa using List.find?_some hf
    refine iff_of_false (h.nodes e hmem).1 (not_not.mpr ?_)
    rw [← hd]
    exact List.mem_map_of_mem hmem

theorem foreach (h : Sequence list m q) :
    listForeach list m = some ((), (q.map Prod.snd).foldl Memory.post m) := by
  apply eq_of_returns
  unfold listForeach
  rw [returns_bind, returns_getList h.list_ne h.object]
  exact (listForeachLoop_returns h.nodes h.links h.length_lt_rounds).mpr ⟨rfl, rfl⟩

end Sequence

end Channels
end Cmpsc473
