import DecentralizedBroadcast.PerfectLinkContract

/-! The deliver threads of one process. Its links take packets from one socket, each under
mutexes of its own, and check and add to two lists that all of them share. -/
set_option autoImplicit false

namespace DecentralizedBroadcast
namespace SharedSocket

/-- The next step of a link's thread in `deliverThreaded`, for the data packet it took. -/
inductive Point where
  | receive
  | lockReceiver (f : Str)
  | hasDelivered (f : Str)         -- receiver_mutex is held from here on
  | addMessageDelivered (f : Str)
  | lockBroadcast (f : Str)
  | contains (f : Str)             -- in BEB's deliver, broadcast_mutex is held
  | pushBack (f : Str)
  | deliver (f : Str)
  | unlockBroadcast
  | unlockReceiver
  deriving DecidableEq

/-- `socket` holds the copies not yet received, `handed` the calls of URB's `deliver`. -/
structure State where
  socket : List Str
  thread : Nat → Point
  receiverMutex : Nat → Bool
  broadcastMutex : Nat → Bool
  processDelivered : List Str
  messagesDelivered : List Str
  handed : List Str

inductive Action where
  | receive (link : Nat) (f : Str)
  | go (link : Nat)                -- the next step of the link's thread

def State.move (s : State) (link : Nat) (pt : Point) : State :=
  { s with thread := Function.update s.thread link pt }

def go (s : State) (link : Nat) : Option State :=
  match s.thread link with
  | .receive => none
  | .lockReceiver f =>
      if s.receiverMutex link then none
      else some ({ s with receiverMutex := Function.update s.receiverMutex link true }.move link
        (.hasDelivered f))
  | .hasDelivered f =>
      if f.drop 1 ∈ s.processDelivered then some (s.move link .unlockReceiver)
      else some (s.move link (.addMessageDelivered f))
  | .addMessageDelivered f =>
      some ({ s with processDelivered := s.processDelivered ++ [f.drop 1] }.move link
        (.lockBroadcast f))
  | .lockBroadcast f =>
      if s.broadcastMutex link then none
      else some ({ s with broadcastMutex := Function.update s.broadcastMutex link true }.move link
        (.contains f))
  | .contains f =>
      if f ∈ s.messagesDelivered then some (s.move link .unlockBroadcast)
      else some (s.move link (.pushBack f))
  | .pushBack f =>
      some ({ s with messagesDelivered := s.messagesDelivered ++ [f] }.move link (.deliver f))
  | .deliver f => some ({ s with handed := s.handed ++ [f] }.move link .unlockBroadcast)
  | .unlockBroadcast =>
      some ({ s with broadcastMutex := Function.update s.broadcastMutex link false }.move link
        .unlockReceiver)
  | .unlockReceiver =>
      some ({ s with receiverMutex := Function.update s.receiverMutex link false }.move link
        .receive)

def step (links : Nat) (s : State) : Action → Option State
  | .receive link f =>
      if link < links ∧ s.thread link = .receive ∧ f ∈ s.socket then
        some ({ s with socket := s.socket.erase f }.move link (.lockReceiver f))
      else none
  | .go link => if link < links then go s link else none

/-- `links` threads and the copies that reach the socket, in whatever order they are taken. -/
def machine (links : Nat) (copies : List Str) : Machine State Action where
  init := {
    socket := copies, thread := fun _ => .receive, receiverMutex := fun _ => false
    broadcastMutex := fun _ => false, processDelivered := [], messagesDelivered := []
    handed := [] }
  step := step links

/-- The packet that BEB's check is about to be made for. -/
def Point.checking : Point → Option Str
  | .contains f => some f
  | _ => none

/-- The packet for which the check was made and the add is still to come. -/
def Point.adding : Point → Option Str
  | .pushBack f => some f
  | _ => none

/-- No thread makes BEB's check for a packet while another stands between its check and its add. -/
def NoOverlap (links : Nat) (s : State) : Action → Prop
  | .receive _ _ => True
  | .go link => ∀ other < links, ∀ f ∈ (s.thread link).checking, (s.thread other).adding ≠ some f

instance (links : Nat) (s : State) : (a : Action) → Decidable (NoOverlap links s a)
  | .receive _ _ => inferInstanceAs (Decidable True)
  | .go _ => inferInstanceAs (Decidable (∀ other < links, _))

/-- What a link does with a packet from the socket when no other thread moves meanwhile. -/
def State.deliverAlone (s : State) (f : Str) : State :=
  let s := { s with socket := s.socket.erase f }
  if f.drop 1 ∈ s.processDelivered then s
  else
    let s := { s with processDelivered := s.processDelivered ++ [f.drop 1] }
    if f ∈ s.messagesDelivered then s
    else { s with messagesDelivered := s.messagesDelivered ++ [f], handed := s.handed ++ [f] }

section Alone
variable {links link : Nat} {s : State} {f : Str}

/-- That is the data branch of `deliverThreaded`, with BEB's check behind it. -/
theorem deliverAlone_eq {N self l : Nat} {st st' : LinkLayer} {up : Option Str}
    (hl : l ≠ self) (hst : st.processDelivered = s.processDelivered)
    (hack : f.head? = some '0') (htarget : stoi ((f.drop 4).take 3) = .ok (self : Int))
    (h : deliverThreaded N self l st f = .ok (st', up)) :
    st'.processDelivered = (s.deliverAlone f).processDelivered ∧
      (s.deliverAlone f).handed =
        s.handed ++ if up = some f ∧ f ∉ s.messagesDelivered then [f] else [] := by
  obtain ⟨c, d, sender, target, rfl, -, ht, hres⟩ := deliverThreaded_cases hl h
  obtain rfl : c = '0' := Option.some.inj hack
  obtain rfl : (self : Int) = target := Except.ok.inj (htarget.symm.trans ht)
  cases hres with
  | data hc ht =>
    simp only [LinkLayer.ackBack_delivered, LinkLayer.record, LinkLayer.addMessageDelivered,
      State.deliverAlone, List.drop_succ_cons, List.drop_zero, hst]
    by_cases hin : d ∈ s.processDelivered
    · simp [hin, hst]
    · by_cases hseen : '0' :: d ∈ s.messagesDelivered <;> simp [hin, hseen]
  | acked hc | strayAck hc => exact absurd hc (by decide)
  | ignored hd ha => exact absurd ⟨rfl, rfl⟩ hd

theorem move_receive {t : State} (ht : t.thread link = .receive) : t.move link .receive = t := by
  rw [State.move, ← ht, Function.update_eq_self]

theorem go_alone (copies : List Str) (hl : link < links)
    (hno : ∀ other, (s.thread other).adding ≠ some f) {t u : State} {a b : Point}
    (ht : t.thread = s.thread) (ha : ∀ g ∈ a.checking, g = f)
    (hgo : go (t.move link a) link = some (u.move link b)) :
    (machine links copies).Steps (NoOverlap links) (t.move link a) (u.move link b) := by
  refine .head (a := .go link) (fun other _ g hg => ?_) ?_ .refl
  · simp only [State.move, Function.update_self] at hg
    obtain rfl := ha g hg
    by_cases hol : other = link
    · subst hol
      cases a <;> simp_all [State.move, Point.checking, Point.adding]
    · simpa [State.move, hol, ht] using hno other
  · simp only [machine, step, if_pos hl, hgo]

theorem unlock_alone (copies : List Str) (hl : link < links)
    (hno : ∀ other, (s.thread other).adding ≠ some f) (t : State) (ht : t.thread = s.thread)
    (hs : s.thread link = .receive)
    (hr : Function.update t.receiverMutex link false = s.receiverMutex) {pt : Point}
    (hb : pt = .unlockReceiver ∧ t.broadcastMutex = s.broadcastMutex ∨
      pt = .unlockBroadcast ∧ Function.update t.broadcastMutex link false = s.broadcastMutex) :
    (machine links copies).Steps (NoOverlap links) (t.move link pt)
      { t with broadcastMutex := s.broadcastMutex, receiverMutex := s.receiverMutex } := by
  set u : State := { t with broadcastMutex := s.broadcastMutex }
  have hreceiver : (machine links copies).Steps (NoOverlap links) (u.move link .unlockReceiver)
      { u with receiverMutex := s.receiverMutex } := by
    have hgo := go_alone copies hl hno (t := u) (u := { u with receiverMutex := s.receiverMutex })
      (a := .unlockReceiver) (b := .receive) ht (by simp [Point.checking])
      (by simp [go, State.move, hr, u])
    rwa [move_receive (by rw [← hs, ← ht])] at hgo
  rcases hb with ⟨rfl, hsame⟩ | ⟨rfl, hfree⟩
  · have hu : u = t := by simp only [u, ← hsame]
    rw [hu] at hreceiver
    rwa [← hsame]
  · exact .trans (go_alone copies hl hno (u := u) (b := .unlockReceiver) ht
      (by simp [Point.checking]) (by simp [go, State.move, hfree, u])) hreceiver

/-- BEB's part, from its check of the list to the end. -/
theorem contains_alone (copies : List Str) (hl : link < links)
    (hno : ∀ other, (s.thread other).adding ≠ some f) (t : State) (ht : t.thread = s.thread)
    (hs : s.thread link = .receive)
    (hr : Function.update t.receiverMutex link false = s.receiverMutex)
    (hb : Function.update t.broadcastMutex link false = s.broadcastMutex) :
    (machine links copies).Steps (NoOverlap links) (t.move link (.contains f))
      { (if f ∈ t.messagesDelivered then t else
        { t with
          messagesDelivered := t.messagesDelivered ++ [f], handed := t.handed ++ [f] }) with
        broadcastMutex := s.broadcastMutex, receiverMutex := s.receiverMutex } := by
  by_cases hseen : f ∈ t.messagesDelivered
  · rw [if_pos hseen]
    exact .trans (go_alone copies hl hno (u := t) (b := .unlockBroadcast) ht
      (by simp [Point.checking]) (by simp [go, State.move, hseen]))
      (unlock_alone copies hl hno t ht hs hr (.inr ⟨rfl, hb⟩))
  · rw [if_neg hseen]
    set u : State := { t with
      messagesDelivered := t.messagesDelivered ++ [f], handed := t.handed ++ [f] }
    refine .trans (go_alone copies hl hno (u := t) (b := .pushBack f) ht
      (by simp [Point.checking]) (by simp [go, State.move, hseen])) ?_
    refine .trans (go_alone copies hl hno (b := .deliver f)
      (u := { t with messagesDelivered := t.messagesDelivered ++ [f] }) ht
      (by simp [Point.checking]) (by simp [go, State.move])) ?_
    exact .trans (go_alone copies hl hno (u := u) (b := .unlockBroadcast) ht
      (by simp [Point.checking]) (by simp [go, State.move, u]))
      (unlock_alone copies hl hno u ht hs hr (.inr ⟨rfl, hb⟩))

theorem steps_alone (copies : List Str) (hl : link < links) (ht : s.thread link = .receive)
    (hf : f ∈ s.socket) (hr : s.receiverMutex link = false) (hb : s.broadcastMutex link = false)
    (hno : ∀ other, (s.thread other).adding ≠ some f) :
    (machine links copies).Steps (NoOverlap links) s (s.deliverAlone f) := by
  set t : State := { s with
    socket := s.socket.erase f, receiverMutex := Function.update s.receiverMutex link true }
  have hreceiver : Function.update t.receiverMutex link false = s.receiverMutex := by
    rw [Function.update_idem, ← hr, Function.update_eq_self]
  have hbroadcast : Function.update (Function.update s.broadcastMutex link true) link false =
      s.broadcastMutex := by
    rw [Function.update_idem, ← hb, Function.update_eq_self]
  have hreceive : (machine links copies).step s (.receive link f) =
      some ({ s with socket := s.socket.erase f }.move link (.lockReceiver f)) :=
    if_pos ⟨hl, ht, hf⟩
  refine .head (a := .receive link f) trivial hreceive ?_
  refine .trans (go_alone copies hl hno (u := t) (b := .hasDelivered f) rfl
    (by simp [Point.checking]) (by simp [go, State.move, hr, t])) ?_
  by_cases hin : f.drop 1 ∈ s.processDelivered
  · have hdone : s.deliverAlone f = { t with
        broadcastMutex := s.broadcastMutex, receiverMutex := s.receiverMutex } := by
      simp only [State.deliverAlone, if_pos hin, t]
    rw [hdone]
    exact .trans (go_alone copies hl hno (u := t) (b := .unlockReceiver) rfl
      (by simp [Point.checking]) (by simp [go, State.move, hin, t, -List.drop_one]))
      (unlock_alone copies hl hno t rfl ht hreceiver (.inl ⟨rfl, rfl⟩))
  · set t₁ : State := { t with
      processDelivered := s.processDelivered ++ [f.drop 1]
      broadcastMutex := Function.update s.broadcastMutex link true }
    have hdone : s.deliverAlone f = { (if f ∈ t₁.messagesDelivered then t₁ else
        { t₁ with
          messagesDelivered := t₁.messagesDelivered ++ [f], handed := t₁.handed ++ [f] }) with
        broadcastMutex := s.broadcastMutex, receiverMutex := s.receiverMutex } := by
      by_cases hseen : f ∈ s.messagesDelivered <;>
        simp only [State.deliverAlone, hin, hseen, if_true, if_false, t₁, t]
    rw [hdone]
    refine .trans (go_alone copies hl hno (u := t) (b := .addMessageDelivered f) rfl
      (by simp [Point.checking]) (by simp [go, State.move, hin, t, -List.drop_one])) ?_
    refine .trans (go_alone copies hl hno (b := .lockBroadcast f)
      (u := { t with processDelivered := s.processDelivered ++ [f.drop 1] }) rfl
      (by simp [Point.checking]) (by simp [go, State.move, t])) ?_
    exact .trans (go_alone copies hl hno (u := t₁) (b := .contains f) rfl
      (by simp [Point.checking]) (by simp [go, State.move, hb, t₁, t]))
      (contains_alone copies hl hno t₁ rfl ht hreceiver hbroadcast)

end Alone

structure Inv (links : Nat) (s : State) : Prop where
  here : ∀ i, s.thread i ≠ .receive → i < links
  adding : ∀ i f, s.thread i = .pushBack f →
    f ∉ s.messagesDelivered ∧ ∀ j, s.thread j = .pushBack f → j = i
  handing : ∀ i f, s.thread i = .deliver f →
    f ∈ s.messagesDelivered ∧ f ∉ s.handed ∧ ∀ j, s.thread j = .deliver f → j = i
  seen : ∀ f ∈ s.handed, f ∈ s.messagesDelivered
  once : s.handed.Nodup

/-- A step of one thread that leaves both lists alone and is not about to add or to deliver. -/
theorem Inv.move {links link : Nat} {s t : State} {pt : Point} (h : Inv links s)
    (hl : link < links) (ht : t.thread = Function.update s.thread link pt)
    (hm : t.messagesDelivered = s.messagesDelivered) (hh : t.handed = s.handed)
    (hp : ∀ f, pt ≠ .pushBack f ∧ pt ≠ .deliver f) : Inv links t := by
  have same : ∀ i f, t.thread i = .pushBack f ∨ t.thread i = .deliver f →
      t.thread i = s.thread i := by
    intro i f hi
    by_cases hil : i = link
    · subst hil
      rw [ht, Function.update_self] at hi
      rcases hi with hi | hi
      · exact absurd hi (hp f).1
      · exact absurd hi (hp f).2
    · rw [ht, Function.update_of_ne hil]
  constructor
  · intro i hi
    by_cases hil : i = link
    · exact hil ▸ hl
    · rw [ht, Function.update_of_ne hil] at hi
      exact h.here i hi
  · intro i f hi
    obtain ⟨hnot, hone⟩ := h.adding i f (same i f (.inl hi) ▸ hi)
    exact ⟨hm ▸ hnot, fun j hj => hone j (same j f (.inl hj) ▸ hj)⟩
  · intro i f hi
    obtain ⟨hin, hnot, hone⟩ := h.handing i f (same i f (.inr hi) ▸ hi)
    exact ⟨hm ▸ hin, hh ▸ hnot, fun j hj => hone j (same j f (.inr hj) ▸ hj)⟩
  · rw [hm, hh]
    exact h.seen
  · rw [hh]
    exact h.once

theorem Inv.check {links link : Nat} {s : State} {f : Str} (h : Inv links s) (hl : link < links)
    (hnew : f ∉ s.messagesDelivered) (hall : ∀ other < links, s.thread other ≠ .pushBack f) :
    Inv links (s.move link (.pushBack f)) := by
  have hnone : ∀ j, s.thread j ≠ .pushBack f := fun j hj =>
    hall j (h.here j (by rw [hj]; simp)) hj
  constructor
  · intro i hi
    by_cases hil : i = link
    · exact hil ▸ hl
    · exact h.here i (by simpa [State.move, hil] using hi)
  · intro i g hi
    by_cases hil : i = link
    · subst hil
      obtain rfl : f = g := by simpa [State.move] using hi
      refine ⟨hnew, fun j hj => by_contra fun hne => hnone j ?_⟩
      simpa [State.move, hne] using hj
    · obtain ⟨hnot, hone⟩ := h.adding i g (by simpa [State.move, hil] using hi)
      refine ⟨hnot, fun j hj => ?_⟩
      by_cases hjl : j = link
      · subst hjl
        obtain rfl : f = g := by simpa [State.move] using hj
        exact absurd (by simpa [State.move, hil] using hi) (hnone i)
      · exact hone j (by simpa [State.move, hjl] using hj)
  · intro i g hi
    by_cases hil : i = link
    · subst hil
      simp [State.move] at hi
    · obtain ⟨hin, hnot, hone⟩ := h.handing i g (by simpa [State.move, hil] using hi)
      refine ⟨hin, hnot, fun j hj => ?_⟩
      by_cases hjl : j = link
      · subst hjl
        simp [State.move] at hj
      · exact hone j (by simpa [State.move, hjl] using hj)
  · exact h.seen
  · exact h.once

theorem Inv.add {links link : Nat} {s : State} {f : Str} (h : Inv links s)
    (hpt : s.thread link = .pushBack f) :
    Inv links ({ s with messagesDelivered := s.messagesDelivered ++ [f] }.move link
      (.deliver f)) := by
  obtain ⟨hnew, honly⟩ := h.adding link f hpt
  constructor
  · intro i hi
    by_cases hil : i = link
    · exact hil ▸ h.here link (by rw [hpt]; simp)
    · exact h.here i (by simpa [State.move, hil] using hi)
  · intro i g hi
    by_cases hil : i = link
    · subst hil
      simp [State.move] at hi
    · have hi' : s.thread i = .pushBack g := by simpa [State.move, hil] using hi
      obtain ⟨hnot, hone⟩ := h.adding i g hi'
      have hgf : g ≠ f := by
        rintro rfl
        exact hil (honly i hi')
      refine ⟨by simp [State.move, hnot, hgf], fun j hj => ?_⟩
      by_cases hjl : j = link
      · subst hjl
        simp [State.move] at hj
      · exact hone j (by simpa [State.move, hjl] using hj)
  · intro i g hi
    by_cases hil : i = link
    · subst hil
      obtain rfl : f = g := by simpa [State.move] using hi
      refine ⟨by simp [State.move], fun hin => hnew (h.seen f hin), fun j hj => ?_⟩
      by_contra hne
      exact hnew (h.handing j f (by simpa [State.move, hne] using hj)).1
    · obtain ⟨hin, hnot, hone⟩ := h.handing i g (by simpa [State.move, hil] using hi)
      refine ⟨by simp [State.move, hin], hnot, fun j hj => ?_⟩
      by_cases hjl : j = link
      · subst hjl
        obtain rfl : f = g := by simpa [State.move] using hj
        exact absurd hin hnew
      · exact hone j (by simpa [State.move, hjl] using hj)
  · intro g hg
    simp [State.move, h.seen g hg]
  · exact h.once

theorem Inv.handUp {links link : Nat} {s : State} {f : Str} (h : Inv links s)
    (hpt : s.thread link = .deliver f) :
    Inv links ({ s with handed := s.handed ++ [f] }.move link .unlockBroadcast) := by
  obtain ⟨hin, hnew, honly⟩ := h.handing link f hpt
  have keep : ∀ i pt, pt ≠ .unlockBroadcast →
      ({ s with handed := s.handed ++ [f] }.move link .unlockBroadcast).thread i = pt →
      i ≠ link ∧ s.thread i = pt := by
    intro i pt hne hi
    by_cases hil : i = link
    · subst hil
      exact absurd (by simpa [State.move] using hi.symm) hne
    · exact ⟨hil, by simpa [State.move, hil] using hi⟩
  constructor
  · intro i hi
    by_cases hil : i = link
    · exact hil ▸ h.here link (by rw [hpt]; simp)
    · exact h.here i (by simpa [State.move, hil] using hi)
  · intro i g hi
    obtain ⟨-, hi⟩ := keep i _ (by simp) hi
    obtain ⟨hnot, hone⟩ := h.adding i g hi
    exact ⟨hnot, fun j hj => hone j (keep j _ (by simp) hj).2⟩
  · intro i g hi
    obtain ⟨hil, hi'⟩ := keep i _ (by simp) hi
    obtain ⟨hgin, hnot, hone⟩ := h.handing i g hi'
    have hgf : g ≠ f := by
      rintro rfl
      exact hil (honly i hi')
    exact ⟨hgin, by simp [State.move, hnot, hgf], fun j hj => hone j (keep j _ (by simp) hj).2⟩
  · intro g hg
    rcases List.mem_append.mp hg with hg | hg
    · exact h.seen g hg
    · exact List.mem_singleton.mp hg ▸ hin
  · change (s.handed ++ [f]).Nodup
    rw [← List.concat_eq_append]
    exact h.once.concat hnew

theorem Inv.step {links : Nat} {s s' : State} {a : Action} (h : Inv links s)
    (ha : NoOverlap links s a) (hs : step links s a = some s') : Inv links s' := by
  cases a with
  | receive link f =>
    simp only [SharedSocket.step, Option.ite_none_right_eq_some] at hs
    obtain ⟨⟨hl, -, -⟩, hs⟩ := hs
    obtain rfl := Option.some.inj hs
    exact h.move hl rfl rfl rfl (by simp)
  | go link =>
    simp only [SharedSocket.step, Option.ite_none_right_eq_some] at hs
    obtain ⟨hl, hs⟩ := hs
    unfold go at hs
    split at hs
    · cases hs
    · simp only [Option.ite_none_left_eq_some] at hs
      obtain rfl := Option.some.inj hs.2
      exact h.move hl rfl rfl rfl (by simp)
    · split at hs <;> obtain rfl := Option.some.inj hs <;> exact h.move hl rfl rfl rfl (by simp)
    · obtain rfl := Option.some.inj hs
      exact h.move hl rfl rfl rfl (by simp)
    · simp only [Option.ite_none_left_eq_some] at hs
      obtain rfl := Option.some.inj hs.2
      exact h.move hl rfl rfl rfl (by simp)
    · rename_i f hpt
      split at hs
      · obtain rfl := Option.some.inj hs
        exact h.move hl rfl rfl rfl (by simp)
      · rename_i hnew
        obtain rfl := Option.some.inj hs
        refine h.check hl hnew fun other ho hother => ?_
        exact ha other ho f (by simp [hpt, Point.checking]) (by simp [hother, Point.adding])
    · rename_i f hpt
      obtain rfl := Option.some.inj hs
      exact h.add hpt
    · rename_i f hpt
      obtain rfl := Option.some.inj hs
      exact h.handUp hpt
    · obtain rfl := Option.some.inj hs
      exact h.move hl rfl rfl rfl (by simp)
    · obtain rfl := Option.some.inj hs
      exact h.move hl rfl rfl rfl (by simp)

/-- However many links there are and however many copies of a packet come, URB gets it once
if no two threads are in BEB's check and add of that packet together. -/
theorem handed_once (links : Nat) (copies : List Str) (s : State)
    (h : (machine links copies).ReachableBy (NoOverlap links) s) (f : Str) :
    s.handed.count f ≤ 1 := by
  have hinv : Inv links s := h.invariant (Inv links) (by constructor <;> simp [machine])
    fun _ _ _ hi ha hs => hi.step ha hs
  exact List.nodup_iff_count_le_one.mp hinv.once f

def oneAfterTheOther (f : Str) : List Action :=
  (.receive 0 f :: List.replicate 9 (.go 0)) ++ (.receive 1 f :: List.replicate 9 (.go 1))

/-- The first batch of process 2, sent to process 1. -/
def pairPacket : Str := packetText 2 1 ['0', '1', '1', 'v', '0', '0', '2', '0']

theorem handed_once_oneAfterTheOther :
    ((machine 2 [pairPacket, pairPacket]).afterBy (NoOverlap 2)
      (oneAfterTheOther pairPacket)).socket = [] ∧
    ((machine 2 [pairPacket, pairPacket]).afterBy (NoOverlap 2)
      (oneAfterTheOther pairPacket)).handed.count pairPacket ≤ 1 :=
  ⟨by decide, handed_once 2 [pairPacket, pairPacket] _ (Machine.reachableBy_after _ _ _) _⟩

/-- Two threads take turns: each makes both checks before the other has added. -/
def takingTurns (f : Str) : List Action :=
  [.receive 0 f, .receive 1 f] ++ (List.replicate 8 [.go 0, .go 1]).flatten

theorem handed_twice_takingTurns : ¬ ∀ (links : Nat) (copies : List Str) (s : State),
    (machine links copies).Reachable s → ∀ f, s.handed.count f ≤ 1 := by
  intro h
  have := h 2 [pairPacket, pairPacket] _ (Machine.reachable_after _ (takingTurns pairPacket))
    pairPacket
  exact absurd this (by decide)

end SharedSocket
end DecentralizedBroadcast
