import Gtm.Events.XferQueue
import Gtm.Lib.PtrList

/-!
# The queue of deferred events is a queue

As long as no call removes the last event, the list in memory is the list of the events that have been saved and neither popped nor
removed, and the tail is its last node. `remove_queue_entry` does not look at the tail: when it removes the last event, the tail points to
a freed node, also when nothing is left.
-/

namespace Gtm

namespace XferQueue

open PtrList

variable {σ : Type} {heap : Nat → Option (SaveXferEntry σ)} {st : QueueSt σ} {addrs : List Nat} {q : List (XferEvent σ)}

/-! ## The list in memory -/

/-- The next pointers. -/
def nextOf (heap : Nat → Option (SaveXferEntry σ)) (a : Nat) : Option Nat := (heap a).bind SaveXferEntry.next

/-- The events in the nodes. -/
def eventOf (heap : Nat → Option (SaveXferEntry σ)) (a : Nat) : Option (XferEvent σ) := (heap a).map SaveXferEntry.event

/-- The list of events in memory. -/
structure Rep (st : QueueSt σ) (addrs : List Nat) (q : List (XferEvent σ)) : Prop where
  nodup : addrs.Nodup
  list : IsList (nextOf st.heap) st.root addrs
  events : addrs.map (eventOf st.heap) = q.map some
  live : ∀ a, st.heap a ≠ none ↔ a ∈ addrs
  tail : st.tail = addrs.getLast?
  count : addrs.length ≤ st.mallocs

theorem nextOf_update (a : Nat) (n : SaveXferEntry σ) :
    nextOf (Function.update heap a (some n)) = Function.update (nextOf heap) a n.next := by
  funext x
  by_cases h : x = a
  · subst h
    simp [nextOf]
  · simp [nextOf, Function.update_of_ne h]

theorem eventOf_update (a : Nat) (n : SaveXferEntry σ) :
    eventOf (Function.update heap a (some n)) = Function.update (eventOf heap) a (some n.event) := by
  funext x
  by_cases h : x = a
  · subst h
    simp [eventOf]
  · simp [eventOf, Function.update_of_ne h]

theorem nextOf_free {a x : Nat} (h : x ≠ a) : nextOf (Function.update heap a none) x = nextOf heap x := by
  rw [nextOf, Function.update_of_ne h, nextOf]

theorem eventOf_free {a x : Nat} (h : x ≠ a) : eventOf (Function.update heap a none) x = eventOf heap x := by
  rw [eventOf, Function.update_of_ne h, eventOf]

theorem Rep.length_eq (h : Rep st addrs q) : addrs.length = q.length := by
  simpa using congrArg List.length h.events

/-- A node is known by its next pointer and its event. -/
theorem heap_eq {a : Nat} {next : Option Nat} {e : XferEvent σ} (hnext : nextOf heap a = next) (hev : eventOf heap a = some e) :
    heap a = some ⟨next, e⟩ := by
  obtain ⟨n, hn, rfl⟩ := Option.map_eq_some_iff.1 hev
  rw [nextOf, hn, Option.bind_some] at hnext
  rw [hn, ← hnext]

/-- What a node of the list holds. -/
theorem Rep.node {a : Nat} {e : XferEvent σ} {pre post : List Nat} {qpre qpost : List (XferEvent σ)}
    (h : Rep st (pre ++ a :: post) (qpre ++ e :: qpost)) (hlen : pre.length = qpre.length) : st.heap a = some ⟨post.head?, e⟩ := by
  have hev := h.events
  rw [List.map_append, List.map_append, List.map_cons] at hev
  have hcons := (List.append_inj hev (by simpa using hlen)).2
  exact heap_eq h.list.append_right.2.eq_head? (List.cons.inj hcons).1

/-- The list without a node of which the one before has been linked to the one behind. -/
theorem Rep.unlink {st' : QueueSt σ} {a : Nat} {e : XferEvent σ} {pre post : List Nat} {qpre qpost : List (XferEvent σ)}
    (h : Rep st (pre ++ a :: post) (qpre ++ e :: qpost)) (hlen : pre.length = qpre.length)
    (hnext : ∀ x, x ≠ a → nextOf st'.heap x = link (nextOf st.heap) pre.getLast? post.head? x)
    (hroot : st'.root = linkRoot st.root pre.getLast? post.head?)
    (hevent : ∀ x, x ≠ a → eventOf st'.heap x = eventOf st.heap x) (hlive : ∀ x, st'.heap x ≠ none ↔ x ≠ a ∧ st.heap x ≠ none)
    (htail : st'.tail = (pre ++ post).getLast?) (hcount : st'.mallocs = st.mallocs) : Rep st' (pre ++ post) (qpre ++ qpost) := by
  have hnd := h.nodup
  rw [List.nodup_append] at hnd
  obtain ⟨hpre, hpost, hdisj⟩ := hnd
  obtain ⟨ha, hpost⟩ := List.nodup_cons.1 hpost
  have hout : a ∉ pre ++ post := by
    rw [List.mem_append]
    rintro (hin | hin)
    · exact hdisj a hin a (by simp) rfl
    · exact ha hin
  refine ⟨?_, ?_, ?_, ?_, htail, ?_⟩
  · exact List.nodup_append.2 ⟨hpre, hpost, fun x hx y hy => hdisj x hx y (by simp [hy])⟩
  · have hright : IsList (nextOf st.heap) post.head? post := by
      have hlist := h.list.append_right.2
      rwa [hlist.eq_head?] at hlist
    rw [hroot]
    refine (h.list.link hpre hright fun x hx hin => hdisj x hx x (by simp [hin]) rfl).congr fun x hx => hnext x ?_
    rintro rfl
    exact hout hx
  · have hev := h.events
    rw [List.map_append, List.map_append, List.map_cons] at hev
    obtain ⟨hev₁, hev₂⟩ := List.append_inj hev (by simpa using hlen)
    rw [List.map_append (f := some), ← hev₁, ← (List.cons.inj hev₂).2, ← List.map_append]
    refine List.map_congr_left fun x hx => hevent x ?_
    rintro rfl
    exact hout hx
  · intro x
    rw [hlive, h.live]
    constructor
    · rintro ⟨hne, hx⟩
      simp only [List.mem_append, List.mem_cons] at hx ⊢
      exact hx.imp_right fun hx => hx.resolve_left hne
    · intro hx
      refine ⟨fun heq => hout (heq ▸ hx), ?_⟩
      simp only [List.mem_append, List.mem_cons] at hx ⊢
      exact hx.imp_right Or.inr
  · have := h.count
    simp only [List.length_append, List.length_cons] at this ⊢
    omega

/-! ## The calls -/

theorem saveXferQueueEntry_rep (malloc : Malloc σ) (event : XferEvent σ) (h : Rep st addrs q) :
    ∃ st' addrs', saveXferQueueEntry malloc event st = some st' ∧ Rep st' addrs' (q ++ [event]) := by
  obtain ⟨x, hx⟩ := Infinite.exists_notMem_finset addrs.toFinset
  have hfree : st.heap x = none := by
    by_contra hne
    exact hx (List.mem_toFinset.2 ((h.live x).1 hne))
  have hfresh := malloc.fresh st.heap x hfree
  generalize hnew : malloc.addr st.heap = a at hfresh
  have ha : a ∉ addrs := fun hin => (h.live a).2 hin hfresh
  rcases List.eq_nil_or_concat addrs with rfl | ⟨pre, t, rfl⟩
  · have hroot : st.root = none := h.list
    have hq : q = [] := List.length_eq_zero_iff.1 h.length_eq.symm
    subst hq
    refine ⟨_, [a], by simp only [saveXferQueueEntry, hnew, QueueSt.write, hroot]; rfl, by simp, ?_, by simp [eventOf], ?_, rfl, by simp⟩
    · exact ⟨rfl, by simp [nextOf]⟩
    · intro y
      rcases eq_or_ne y a with rfl | hne
      · simp
      · have hnone : st.heap y = none := by
          by_contra hy
          simpa using (h.live y).1 hy
        simp [hnone, hne]
  · rcases List.eq_nil_or_concat q with rfl | ⟨qpre, e, rfl⟩
    · simpa using h.length_eq
    have hlen : pre.length = qpre.length := by simpa using h.length_eq
    rw [List.concat_eq_append] at h ha ⊢
    rw [List.concat_eq_append] at h
    have hnode : st.heap t = some ⟨none, e⟩ := h.node hlen
    have hta : t ≠ a := by
      rintro rfl
      exact ha (by simp)
    have htail : st.tail = some t := by rw [h.tail, List.getLast?_concat]
    obtain ⟨r, hroot⟩ : ∃ r, st.root = some r := by
      rw [h.list.eq_head?]
      exact Option.isSome_iff_exists.1 (by simp)
    have hstep : saveXferQueueEntry malloc event st =
        some ⟨Function.update (Function.update st.heap a (some ⟨none, event⟩)) t (some ⟨some a, e⟩), some r, some a, st.mallocs + 1⟩ := by
      simp only [saveXferQueueEntry, hnew, QueueSt.write, hroot, htail]
      rw [Function.update_of_ne hta, hnode]
    refine ⟨_, pre ++ [t] ++ [a], hstep, ?_, ?_, ?_, ?_, by simp, ?_⟩
    · rw [List.nodup_append]
      refine ⟨h.nodup, by simp, fun y hy z hz => ?_⟩
      rintro rfl
      rw [List.mem_singleton] at hz
      exact ha (hz ▸ hy)
    · have hbase : IsList (Function.update (nextOf st.heap) a none) st.root (pre ++ [t] ++ []) := by
        rw [List.append_nil]
        exact h.list.update ha none
      have hone : IsList (Function.update (nextOf st.heap) a none) (some a) [a] := ⟨rfl, by simp⟩
      have hlinked := hbase.link h.nodup hone fun y hy hin => ha (List.mem_singleton.1 hin ▸ hy)
      rw [List.getLast?_concat] at hlinked
      rw [nextOf_update, nextOf_update, ← hroot]
      exact hlinked
    · have hnew : Function.update (Function.update (eventOf st.heap) a (some event)) t (some e) a = some event := by
        rw [Function.update_of_ne hta.symm, Function.update_self]
      rw [eventOf_update, eventOf_update, List.map_append, List.map_append (f := some), ← h.events]
      simp only [List.map_singleton, hnew]
      congr 1
      refine List.map_congr_left fun y hy => ?_
      rcases eq_or_ne y t with rfl | hne
      · rw [Function.update_self, eventOf, hnode]
        rfl
      · rw [Function.update_of_ne hne, Function.update_of_ne]
        rintro rfl
        exact ha hy
    · intro y
      rw [List.mem_append, ← h.live]
      rcases eq_or_ne y t with rfl | hne
      · simp [hnode]
      · rcases eq_or_ne y a with rfl | hne'
        · simp [Function.update_of_ne hne]
        · simp [Function.update_of_ne hne, hne']
    · have := h.count
      simp only [List.length_append, List.length_singleton] at this ⊢
      omega

theorem popResetXferEntry_rep (h : Rep st addrs q) : ∃ st' addrs', popResetXferEntry st = some (st', q.head?) ∧ Rep st' addrs' q.tail := by
  cases addrs with
  | nil =>
    have hroot : st.root = none := h.list
    have hq : q = [] := List.length_eq_zero_iff.1 h.length_eq.symm
    subst hq
    exact ⟨st, [], by rw [popResetXferEntry, hroot]; rfl, h⟩
  | cons a l =>
    cases q with
    | nil => simpa using h.length_eq
    | cons e q =>
      have hroot : st.root = some a := h.list.1
      have h' : Rep st ([] ++ a :: l) ([] ++ e :: q) := h
      have hnode : st.heap a = some ⟨l.head?, e⟩ := h'.node rfl
      refine ⟨_, l, by simp only [popResetXferEntry, hroot, hnode]; rfl, ?_⟩
      refine h'.unlink rfl (fun x hx => ?_) rfl (fun x hx => ?_) (fun x => ?_) ?_ rfl
      · exact nextOf_free hx
      · exact eventOf_free hx
      · rcases eq_or_ne x a with rfl | hne
        · simp [QueueSt.free]
        · simp [QueueSt.free, hne]
      · have htail := h.tail
        cases l with
        | nil => simp [QueueSt.free, htail]
        | cons b l =>
          have hne : (b :: l).getLast? ≠ some a := fun hlast => (List.nodup_cons.1 h.nodup).1 (List.mem_of_getLast? hlast)
          rw [List.getLast?_cons_cons] at htail
          simp only [QueueSt.free, htail, if_neg hne, List.nil_append]

section Remove

variable [DecidableEq σ] {f : σ}

/-- The loop comes to the first event with the function. -/
theorem findLoop_spec {r : Option Nat} {l : List Nat} {es : List (XferEvent σ)} (hl : IsList (nextOf heap) r l)
    (hes : l.map (eventOf heap) = es.map some) {fuel : Nat} (hfuel : l.length ≤ fuel) (qprev : Option Nat) :
    ∃ pre post qpre qpost, l = pre ++ post ∧ es = qpre ++ qpost ∧ pre.length = qpre.length ∧ (∀ e ∈ qpre, e.setFn ≠ f) ∧
      (∀ e ∈ qpost.head?, e.setFn = f) ∧ findLoop heap f fuel qprev r = some (pre.getLast?.or qprev, post.head?) := by
  induction l generalizing r es fuel qprev with
  | nil =>
    have hr : r = none := hl
    subst hr
    have hnil : es = [] := by simpa using congrArg List.length hes.symm
    subst hnil
    refine ⟨[], [], [], [], rfl, rfl, rfl, by simp, by simp, ?_⟩
    cases fuel <;> rfl
  | cons a l ih =>
    cases es with
    | nil => simp at hes
    | cons e es =>
      obtain ⟨rfl, hl⟩ := hl
      obtain ⟨hev, hes⟩ := List.cons.inj hes
      have hnode : heap a = some ⟨nextOf heap a, e⟩ := heap_eq rfl hev
      cases fuel with
      | zero => simp at hfuel
      | succ fuel =>
        rw [findLoop, hnode]
        by_cases hf : e.setFn = f
        · refine ⟨[], a :: l, [], e :: es, rfl, rfl, rfl, by simp, by simpa using hf, ?_⟩
          simp [hf]
        · obtain ⟨pre, post, qpre, qpost, rfl, rfl, hlen, hpre, hpost, hloop⟩ := ih hl hes (by simpa using hfuel) (some a)
          refine ⟨a :: pre, post, e :: qpre, qpost, rfl, rfl, by simpa using hlen, ?_, hpost, ?_⟩
          · intro x hx
            rcases List.mem_cons.1 hx with rfl | hx
            · exact hf
            · exact hpre x hx
          · simp only [if_neg hf]
            rw [hloop, List.getLast?_cons]
            cases pre.getLast? <;> rfl

theorem eraseP_first {qpre qpost : List (XferEvent σ)} {e : XferEvent σ} (hpre : ∀ x ∈ qpre, x.setFn ≠ f) (he : e.setFn = f) :
    (qpre ++ e :: qpost).eraseP (fun x => x.setFn = f) = qpre ++ qpost := by
  rw [List.eraseP_append_right _ (by simpa using hpre), List.eraseP_cons_of_pos (by simpa using he)]

/-- What the call does: nothing if no event has the function; else the first such event leaves the list, but not the tail. -/
theorem removeQueueEntry_cases (f : σ) (h : Rep st addrs q) : ((∀ e ∈ q, e.setFn ≠ f) ∧ removeQueueEntry f st = some st) ∨
      ∃ pre a post qpre e qpost st', addrs = pre ++ a :: post ∧ q = qpre ++ e :: qpost ∧ pre.length = qpre.length ∧
        (∀ x ∈ qpre, x.setFn ≠ f) ∧ e.setFn = f ∧ removeQueueEntry f st = some st' ∧ st'.tail = st.tail ∧ st'.heap a = none ∧
        (st.tail = (pre ++ post).getLast? → Rep st' (pre ++ post) (qpre ++ qpost)) := by
  obtain ⟨pre, post, qpre, qpost, rfl, rfl, hlen, hpre, hpost, hfind⟩ := findLoop_spec (f := f) h.list h.events h.count none
  have hlens : post.length = qpost.length := by
    have := h.length_eq
    simp only [List.length_append] at this
    omega
  cases post with
  | nil =>
    have hnil : qpost = [] := List.length_eq_zero_iff.1 hlens.symm
    subst hnil
    refine .inl ⟨by simpa using hpre, ?_⟩
    rw [removeQueueEntry, findQueueEntry, hfind]
    rfl
  | cons a post =>
    cases qpost with
    | nil => simp at hlens
    | cons e qpost =>
      have hnode : st.heap a = some ⟨post.head?, e⟩ := h.node hlen
      have he : e.setFn = f := hpost e rfl
      rcases List.eq_nil_or_concat pre with rfl | ⟨pre, p, rfl⟩
      · have hstep : removeQueueEntry f st = some ({ st with root := post.head? }.free a) := by
          rw [removeQueueEntry, findQueueEntry, hfind]
          simp [hnode]
        refine .inr ⟨[], a, post, qpre, e, qpost, _, rfl, rfl, hlen, hpre, he, hstep, rfl, by simp [QueueSt.free], fun htail => ?_⟩
        refine h.unlink hlen (fun x hx => nextOf_free hx) rfl (fun x hx => eventOf_free hx) (fun x => ?_) htail rfl
        rcases eq_or_ne x a with rfl | hne
        · simp [QueueSt.free]
        · simp [QueueSt.free, hne]
      · rw [List.concat_eq_append] at h hlen hfind ⊢
        rcases List.eq_nil_or_concat qpre with rfl | ⟨qpre, d, rfl⟩
        · simp at hlen
        rw [List.concat_eq_append] at h hlen hpre ⊢
        have hprev : st.heap p = some ⟨some a, d⟩ := by
          have h' : Rep st (pre ++ p :: (a :: post)) (qpre ++ d :: (e :: qpost)) := by simpa using h
          exact h'.node (by simpa using hlen)
        have hstep : removeQueueEntry f st = some ((st.write p ⟨post.head?, d⟩).free a) := by
          rw [removeQueueEntry, findQueueEntry, hfind]
          simp [hnode, hprev]
        refine .inr ⟨pre ++ [p], a, post, qpre ++ [d], e, qpost, _, rfl, rfl, hlen, hpre, he, hstep, rfl,
          by simp [QueueSt.free], fun htail => ?_⟩
        refine h.unlink hlen (fun x hx => ?_) ?_ (fun x hx => ?_) (fun x => ?_) htail rfl
        · rw [QueueSt.free, nextOf_free hx, QueueSt.write, nextOf_update, List.getLast?_concat]
          rfl
        · rw [List.getLast?_concat]
          rfl
        · rw [QueueSt.free, eventOf_free hx, QueueSt.write, eventOf_update]
          rcases eq_or_ne x p with rfl | hne
          · rw [Function.update_self, eventOf, hprev]
            rfl
          · rw [Function.update_of_ne hne]
        · rcases eq_or_ne x a with rfl | hne
          · simp [QueueSt.free]
          · rcases eq_or_ne x p with rfl | hne'
            · simp [QueueSt.free, QueueSt.write, hne, hprev]
            · simp [QueueSt.free, QueueSt.write, Function.update_of_ne hne', hne]

theorem removeQueueEntry_rep (h : Rep st addrs q) (hkeep : KeepsTail q (.remove f)) :
    ∃ st' addrs', removeQueueEntry f st = some st' ∧ Rep st' addrs' (q.eraseP fun e => e.setFn = f) := by
  rcases removeQueueEntry_cases f h with ⟨hnone, hstep⟩ | ⟨pre, a, post, qpre, e, qpost, st', rfl, rfl, hlen, hpre, he, hstep, -, -, hrep⟩
  · refine ⟨st, addrs, hstep, ?_⟩
    rwa [List.eraseP_of_forall_not (by simpa using hnone)]
  · refine ⟨st', pre ++ post, hstep, ?_⟩
    rw [eraseP_first hpre he]
    refine hrep ?_
    have hlast : post ≠ [] := by
      rintro rfl
      have hq : qpost = [] := by
        have := h.length_eq
        simp only [List.length_append, List.length_cons, List.length_nil] at this
        exact List.length_eq_zero_iff.1 (by omega)
      subst hq
      refine hkeep ?_
      rw [List.dropWhile_append_of_pos (by simpa using hpre)]
      simp [he]
    obtain ⟨b, post, rfl⟩ := List.exists_cons_of_ne_nil hlast
    rw [h.tail, List.getLast?_append, List.getLast?_append, List.getLast?_cons_cons]

/-- When the call removes the last event, the tail points to a node that is free. -/
theorem removeQueueEntry_last (h : Rep st addrs q) (hlast : ¬ KeepsTail q (.remove f)) :
    ∃ st' a, removeQueueEntry f st = some st' ∧ st'.tail = some a ∧ st'.heap a = none := by
  have hone : (q.dropWhile fun e => e.setFn ≠ f).length = 1 := not_not.1 hlast
  rcases removeQueueEntry_cases f h with ⟨hnone, -⟩ | ⟨pre, a, post, qpre, e, qpost, st', rfl, rfl, hlen, hpre, he, hstep, htail, hfree, -⟩
  · have hdrop : (q.dropWhile fun e => e.setFn ≠ f) = [] := List.dropWhile_eq_nil_iff.2 (by simpa using hnone)
    rw [hdrop] at hone
    simp at hone
  · rw [List.dropWhile_append_of_pos (by simpa using hpre)] at hone
    have hq : qpost = [] := by simpa [he] using hone
    subst hq
    have hpost : post = [] := by
      have := h.length_eq
      simp only [List.length_append, List.length_cons, List.length_nil] at this
      exact List.length_eq_zero_iff.1 (by omega)
    subst hpost
    exact ⟨st', a, hstep, by rw [htail, h.tail, List.getLast?_concat], hfree⟩

end Remove

/-- The loop frees the nodes of the list. -/
theorem emptyLoop_spec (st : QueueSt σ) {l : List Nat} {r : Option Nat} (hl : IsList (nextOf st.heap) r l) (hnd : l.Nodup)
    (hlive : ∀ a ∈ l, st.heap a ≠ none) {fuel : Nat} (hfuel : l.length ≤ fuel) :
    ∃ heap', emptyLoop fuel r st = some { st with heap := heap' } ∧ ∀ a, heap' a ≠ none ↔ a ∉ l ∧ st.heap a ≠ none := by
  induction l generalizing r st fuel with
  | nil =>
    have hr : r = none := hl
    subst hr
    refine ⟨st.heap, ?_, by simp⟩
    cases fuel <;> rfl
  | cons a l ih =>
    obtain ⟨rfl, hl⟩ := hl
    obtain ⟨ha, hnd⟩ := List.nodup_cons.1 hnd
    obtain ⟨n, hn⟩ := Option.ne_none_iff_exists'.1 (hlive a (by simp))
    cases fuel with
    | zero => simp at hfuel
    | succ fuel =>
      have hne : ∀ x ∈ l, x ≠ a := fun x hx heq => ha (heq ▸ hx)
      have hnext : nextOf st.heap a = n.next := by rw [nextOf, hn, Option.bind_some]
      rw [hnext] at hl
      obtain ⟨heap', hloop, hheap⟩ := ih (st.free a) (hl.congr fun x hx => nextOf_free (hne x hx)) hnd
        (fun x hx => by simpa [QueueSt.free, Function.update_of_ne (hne x hx)] using hlive x (by simp [hx])) (by simpa using hfuel)
      refine ⟨heap', by rw [emptyLoop, hn]; exact hloop, fun x => ?_⟩
      rw [hheap, QueueSt.free, List.mem_cons]
      rcases eq_or_ne x a with rfl | hx
      · simp
      · simp [hx]

theorem emptyQueue_rep (h : Rep st addrs q) : ∃ st' addrs', emptyQueue st = some st' ∧ Rep st' addrs' [] := by
  obtain ⟨heap', hloop, hheap⟩ := emptyLoop_spec { st with root := none, tail := none } h.list h.nodup
    (fun a ha => (h.live a).2 ha) h.count
  refine ⟨_, [], hloop, by simp, rfl, rfl, fun a => ?_, rfl, Nat.zero_le _⟩
  rw [hheap, h.live]
  simp

open Classical in
/-- The allocator that gives the lowest node. -/
noncomputable def lowestFree (σ : Type) : Malloc σ where
  addr heap := if h : ∃ a, heap a = none then Nat.find h else 0
  fresh heap a ha := by
    have h : ∃ a, heap a = none := ⟨a, ha⟩
    rw [dif_pos h]
    exact Nat.find_spec h

/-! ## Runs -/

theorem rep_init : Rep (.init : QueueSt σ) [] [] := ⟨by simp, rfl, rfl, by simp [QueueSt.init], rfl, Nat.zero_le _⟩

section Runs

variable [DecidableEq σ] (malloc : Malloc σ)

theorem queueStep_rep (h : Rep st addrs q) {op : QueueOp σ} (hkeep : KeepsTail q op) :
    ∃ st' addrs', queueStep malloc st op = some (st', (fifoStep q op).2) ∧ Rep st' addrs' (fifoStep q op).1 := by
  cases op with
  | save event =>
    obtain ⟨st', addrs', hstep, hrep⟩ := saveXferQueueEntry_rep malloc event h
    exact ⟨st', addrs', by rw [queueStep, hstep]; rfl, hrep⟩
  | pop => exact popResetXferEntry_rep h
  | remove setFn =>
    obtain ⟨st', addrs', hstep, hrep⟩ := removeQueueEntry_rep h hkeep
    exact ⟨st', addrs', by rw [queueStep, hstep]; rfl, hrep⟩
  | empty =>
    obtain ⟨st', addrs', hstep, hrep⟩ := emptyQueue_rep h
    exact ⟨st', addrs', by rw [queueStep, hstep]; rfl, hrep⟩

theorem queueRun_rep (h : Rep st addrs q) {ops : List (QueueOp σ)} (hkeep : TailKept ops q) :
    ∃ st' addrs', queueRun malloc ops st = some (st', (fifoRun ops q).2) ∧ Rep st' addrs' (fifoRun ops q).1 := by
  induction ops generalizing st addrs q with
  | nil => exact ⟨st, addrs, rfl, h⟩
  | cons op ops ih =>
    obtain ⟨st₁, addrs₁, hstep, hrep₁⟩ := queueStep_rep malloc h hkeep.1
    obtain ⟨st₂, addrs₂, hrun, hrep₂⟩ := ih hrep₁ hkeep.2
    exact ⟨st₂, addrs₂, by rw [queueRun, hstep]; simp only [hrun]; rfl, hrep₂⟩

theorem TailKept.take {ops : List (QueueOp σ)} (h : TailKept ops q) (n : Nat) : TailKept (ops.take n) q := by
  induction ops generalizing q n with
  | nil => simpa using h
  | cons op ops ih =>
    cases n with
    | zero => trivial
    | succ n => exact ⟨h.1, ih h.2 n⟩

/-- A call after which the list is still in memory did not remove the last event. -/
theorem keepsTail_of_rep (h : Rep st addrs q) {op : QueueOp σ} {st' : QueueSt σ} {popped : Option (XferEvent σ)} {addrs' : List Nat}
    {q' : List (XferEvent σ)} (hstep : queueStep malloc st op = some (st', popped)) (h' : Rep st' addrs' q') : KeepsTail q op := by
  by_contra hlast
  cases op with
  | save _ => exact hlast trivial
  | pop => exact hlast trivial
  | empty => exact hlast trivial
  | remove f =>
    obtain ⟨st₁, a, hremove, htail, hfree⟩ := removeQueueEntry_last h hlast
    rw [queueStep, hremove] at hstep
    obtain ⟨rfl, -⟩ := Prod.mk.inj (Option.some.inj hstep)
    rw [h'.tail] at htail
    exact (h'.live a).2 (List.mem_of_getLast? htail) hfree

/-- The list is in memory after each call of a run exactly when no call removes the last event. -/
theorem tailKept_iff (h : Rep st addrs q) (ops : List (QueueOp σ)) :
    TailKept ops q ↔ ∀ n, ∃ st' addrs', queueRun malloc (ops.take n) st = some (st', (fifoRun (ops.take n) q).2) ∧
      Rep st' addrs' (fifoRun (ops.take n) q).1 := by
  refine ⟨fun hkeep n => queueRun_rep malloc h (hkeep.take n), fun hall => ?_⟩
  induction ops generalizing st addrs q with
  | nil => trivial
  | cons op ops ih =>
    obtain ⟨st₁, addrs₁, hone, hrep₁⟩ := hall 1
    rw [List.take_succ_cons] at hone hrep₁
    cases hstep : queueStep malloc st op with
    | none => simp [queueRun, hstep] at hone
    | some out =>
      obtain ⟨st₂, popped⟩ := out
      have heq : st₂ = st₁ := by
        simp only [queueRun, hstep] at hone
        exact congrArg Prod.fst (Option.some.inj hone)
      subst heq
      have hkeep : KeepsTail q op := keepsTail_of_rep malloc h hstep hrep₁
      obtain ⟨st₃, -, hstep₃, -⟩ := queueStep_rep malloc h hkeep
      have hpopped : popped = (fifoStep q op).2 := by
        rw [hstep] at hstep₃
        exact congrArg Prod.snd (Option.some.inj hstep₃)
      refine ⟨hkeep, ih hrep₁ fun n => ?_⟩
      obtain ⟨st', addrs', hrun, hrep⟩ := hall (n + 1)
      rw [List.take_succ_cons] at hrun hrep
      refine ⟨st', addrs', ?_, hrep⟩
      rw [queueRun, hstep] at hrun
      cases hrest : queueRun malloc (ops.take n) st₂ with
      | none => simp [hrest] at hrun
      | some rest =>
        obtain ⟨st₄, out⟩ := rest
        simp only [hrest, hpopped, fifoRun] at hrun
        obtain ⟨rfl, hout⟩ := Prod.mk.inj (Option.some.inj hrun)
        rw [List.append_cancel_left hout]

/-- In a run no call touches a freed node, every event is popped once and in order unless it has been removed, and after each call the root
and the tail are the ends of the list of the events that are left, exactly when no call removes the last event. -/
theorem queueRun_fifo (ops : List (QueueOp σ)) :
    TailKept ops [] ↔ ∀ n, ∃ st addrs, queueRun malloc (ops.take n) .init = some (st, (fifoRun (ops.take n) []).2) ∧
      Rep st addrs (fifoRun (ops.take n) []).1 ∧ (st.tail = none ↔ st.root = none) := by
  rw [tailKept_iff malloc rep_init]
  refine forall_congr' fun n => exists_congr fun st => exists_congr fun addrs => and_congr_right fun _ => ?_
  refine (and_iff_left_of_imp fun hrep => ?_).symm
  rw [hrep.tail, hrep.list.eq_head?, List.getLast?_eq_none_iff, List.head?_eq_none_iff]

end Runs

/-- After the only event has been removed the root is null, but the tail is a freed node. -/
theorem queueRun_stale_tail :
    ∃ st, queueRun (lowestFree Nat) [.save ⟨1, 7, 0⟩, .remove 7] .init = some (st, []) ∧ st.root = none ∧
      ∃ a, st.tail = some a ∧ st.heap a = none := by
  simp [queueRun, queueStep, saveXferQueueEntry, removeQueueEntry, findQueueEntry, findLoop, QueueSt.init, QueueSt.write, QueueSt.free]

end XferQueue

end Gtm
