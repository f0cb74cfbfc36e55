import DecentralizedBroadcast.ProcessState

/-! URB does not care in which order the frames come: what it acknowledged, relayed and
handed up in the end is read off the frames it got, and the passes only decide when. -/
set_option autoImplicit false

namespace DecentralizedBroadcast

inductive UrbCall where
  | deliver (msg : Str)
  | deliverPending

namespace Urb

/-- The other components: what was given to BEB, and what was handed to the upper layer. -/
def call (N : Nat) (u : Urb) : UrbCall → Except Fault (Urb × List Str × List Str)
  | .deliver msg => do
      let (u, relay) ← u.deliver msg
      pure (u, relay.toList, [])
  | .deliverPending =>
      let (u, up) := u.deliverPending N
      pure (u, [], up)

def run (N : Nat) : List UrbCall → Urb → Except Fault (Urb × List Str × List Str)
  | [], u => pure (u, [], [])
  | c :: cs, u => do
      let (u, relays, up) ← u.call N c
      let (u, relays', up') ← run N cs u
      pure (u, relays ++ relays', up ++ up')

end Urb

theorem Urb.run_pass {N : Nat} {cs : List UrbCall} {u u' : Urb} {relays up : List Str}
    (h : Urb.run N cs u = .ok (u', relays, up)) : Urb.run N (cs ++ [.deliverPending]) u =
      .ok ((u'.deliverPending N).1, relays, up ++ (u'.deliverPending N).2) := by
  induction cs generalizing u relays up with
  | nil =>
    simp only [Urb.run, pure, Except.pure, Except.ok.injEq, Prod.mk.injEq] at h
    obtain ⟨rfl, rfl, rfl⟩ := h
    simp [Urb.run, Urb.call, bind, Except.bind, pure, Except.pure]
  | cons c cs ih =>
    simp only [Urb.run, bind_eq_ok, pure, Except.pure, Except.ok.injEq, Prod.mk.injEq] at h
    obtain ⟨⟨u₁, relays₁, up₁⟩, hc, ⟨u₂, relays₂, up₂⟩, hr, rfl, rfl, rfl⟩ := h
    simp only [List.cons_append, Urb.run, bind_eq_ok]
    exact ⟨_, hc, _, ih hr, by simp [pure, Except.pure]⟩

def frames (cs : List UrbCall) : List Str :=
  cs.filterMap fun c => match c with
    | .deliver msg => some msg
    | .deliverPending => none

/-- A relay for each key that is new among `keys`. -/
structure RelaysOf (pending keys relays : List Str) : Prop where
  once : relays.Nodup
  mem : ∀ x, x ∈ relays ↔ ∃ k, x = 'r' :: k ∧ k ∉ pending ∧ k ∈ keys

/-- Where URB is when it started from `start` and was handed `fs`. -/
structure Received (N : Nat) (start : Urb) (fs relays up : List Str) (u : Urb) : Prop where
  ack : u.ack = start.ack ++ fs.map fun f => (packetKey f, packetOrigin f)
  pending : ∀ k, k ∈ u.pending ↔ k ∈ start.pending ∨ k ∈ fs.map packetKey
  relays : RelaysOf start.pending (fs.map packetKey) relays
  delivered : ∀ k, u.delivered k = if k ∈ up then 1 else start.delivered k
  once : up.Nodup
  sound : ∀ k ∈ up, k ∈ u.pending ∧ u.canDeliver N k = true ∧ start.delivered k = 0

theorem RelaysOf.nil (pending : List Str) : RelaysOf pending [] [] := ⟨by simp, by simp⟩

theorem RelaysOf.snoc {pending keys relays : List Str} (h : RelaysOf pending keys relays)
    (k : Str) : RelaysOf pending (keys ++ [k])
      (relays ++ (if k ∈ pending ∨ k ∈ keys then none else some ('r' :: k)).toList) := by
  by_cases hold : k ∈ pending ∨ k ∈ keys
  · rw [if_pos hold, Option.toList_none, List.append_nil]
    refine ⟨h.once, fun x => ?_⟩
    rw [h.mem]
    grind
  · rw [if_neg hold, Option.toList_some]
    have hnew : 'r' :: k ∉ relays := by
      intro hin
      obtain ⟨k', heq, hk'⟩ := (h.mem _).mp hin
      obtain ⟨-, rfl⟩ := List.cons.inj heq
      exact hold (.inr hk'.2)
    refine ⟨List.concat_eq_append ▸ h.once.concat hnew, fun x => ?_⟩
    rw [List.mem_append, List.mem_singleton, h.mem]
    grind

namespace Received
variable {N : Nat} {start u : Urb} {fs relays up : List Str}

theorem refl (N : Nat) (start : Urb) : Received N start [] [] [] start := by
  constructor <;> simp [RelaysOf.nil]

theorem canDeliver_mono {u u' : Urb} {acks : List (Str × Str)} (h : u'.ack = u.ack ++ acks)
    {k : Str} (hk : u.canDeliver N k = true) : u'.canDeliver N k = true := by
  simp only [Urb.canDeliver, decide_eq_true_eq] at hk ⊢
  rw [h, List.countP_append]
  omega

theorem deliver (h : Received N start fs relays up u) {f : Str} (hf : FrameFits f) :
    ∃ u' relay, u.deliver f = .ok (u', relay) ∧
      Received N start (fs ++ [f]) (relays ++ relay.toList) up u' := by
  obtain ⟨u', relay, hd⟩ := urbDeliver_total hf u
  refine ⟨u', relay, hd, ?_⟩
  obtain ⟨rfl, rfl⟩ := urbDeliver_ok hd
  have hpend : ∀ k, k ∈ (if packetKey f ∈ u.pending then u.pending
      else u.pending ++ [packetKey f]) ↔ k ∈ u.pending ∨ k = packetKey f := by
    intro k
    split
    · rename_i hin
      exact ⟨.inl, by rintro (hk | rfl) <;> assumption⟩
    · simp
  constructor
  · simp [h.ack]
  · intro k
    refine (hpend k).trans ?_
    rw [h.pending, List.map_append, List.map_singleton, List.mem_append, List.mem_singleton,
      or_assoc]
  · have := h.relays.snoc (packetKey f)
    simpa only [List.map_append, List.map_singleton, h.pending] using this
  · exact h.delivered
  · exact h.once
  · intro k hk
    obtain ⟨hin, hcan, h0⟩ := h.sound k hk
    exact ⟨(hpend k).mpr (.inl hin), canDeliver_mono rfl hcan, h0⟩

theorem deliverPending (h : Received N start fs relays up u) {u' : Urb} {new : List Str}
    (hd : u.deliverPending N = (u', new)) :
    Received N start fs relays (up ++ new) u' ∧
      ∀ k ∈ u'.pending, u'.canDeliver N k = true → start.delivered k = 0 → k ∈ up ++ new := by
  obtain ⟨hpend, hack, hdel, hnd, hall⟩ := urb_deliverLoop hd
  have hcan : ∀ k, u'.canDeliver N k = u.canDeliver N k := by
    intro k
    rw [Urb.canDeliver, Urb.canDeliver, hack]
  have hfresh : ∀ k ∈ new, k ∉ up := by
    intro k hk hin
    have h0 := ((hall k).mp hk).2.2
    rw [h.delivered, if_pos hin] at h0
    cases h0
  refine ⟨⟨hack ▸ h.ack, hpend ▸ h.pending, h.relays, ?_, ?_, ?_⟩, ?_⟩
  · intro k
    by_cases hk : k ∈ new <;> by_cases hup : k ∈ up <;> simp [hdel, h.delivered, hk, hup]
  · exact List.nodup_append.mpr ⟨h.once, hnd, fun a ha b hb hab => hfresh b hb (hab ▸ ha)⟩
  · intro k hk
    rw [hpend, hcan]
    rcases List.mem_append.mp hk with hk | hk
    · exact h.sound k hk
    · obtain ⟨hin, hc, h0⟩ := (hall k).mp hk
      rw [h.delivered, if_neg (hfresh k hk)] at h0
      exact ⟨hin, hc, h0⟩
  · intro k hin hc h0
    rw [List.mem_append]
    by_cases hup : k ∈ up
    · exact .inl hup
    · refine .inr ((hall k).mpr ⟨hpend ▸ hin, hcan k ▸ hc, ?_⟩)
      rw [h.delivered, if_neg hup, h0]

theorem run (h : Received N start fs relays up u) {cs : List UrbCall}
    (hf : ∀ f ∈ frames cs, FrameFits f) : ∃ u' rs new, Urb.run N cs u = .ok (u', rs, new) ∧
      Received N start (fs ++ frames cs) (relays ++ rs) (up ++ new) u' := by
  induction cs generalizing u fs relays up with
  | nil => exact ⟨u, [], [], rfl, by simpa [frames] using h⟩
  | cons c cs ih =>
    cases c with
    | deliver f =>
      have hcons : frames (.deliver f :: cs) = f :: frames cs := by simp [frames]
      rw [hcons] at hf ⊢
      obtain ⟨u₁, relay, hd, hp⟩ := h.deliver (hf f (by simp))
      obtain ⟨u', rs, new, hrun, hp⟩ := ih hp fun x hx => hf x (by simp [hx])
      refine ⟨u', relay.toList ++ rs, new, ?_, by simpa using hp⟩
      simp only [Urb.run, Urb.call, bind_eq_ok]
      exact ⟨_, ⟨_, hd, rfl⟩, _, hrun, rfl⟩
    | deliverPending =>
      cases hd : u.deliverPending N with
      | mk u₁ new₁ =>
        obtain ⟨hp, -⟩ := h.deliverPending hd
        obtain ⟨u', rs, new, hrun, hp⟩ := ih hp fun x hx => hf x hx
        refine ⟨u', rs, new₁ ++ new, ?_, by simpa [frames] using hp⟩
        simp only [Urb.run, Urb.call, hd, bind_eq_ok]
        exact ⟨_, rfl, _, hrun, rfl⟩

theorem complete (cs : List UrbCall) (hf : ∀ f ∈ frames cs, FrameFits f) :
    ∃ u rs new, Urb.run N (cs ++ [.deliverPending]) start = .ok (u, rs, new) ∧
      Received N start (frames cs) rs new u ∧
      ∀ k, k ∈ new ↔ k ∈ u.pending ∧ u.canDeliver N k = true ∧ start.delivered k = 0 := by
  obtain ⟨u₁, rs, new₁, h₁, hp⟩ := (refl N start).run hf
  simp only [List.nil_append] at hp
  obtain ⟨hlast, hdue⟩ := hp.deliverPending (Prod.mk.eta.symm : u₁.deliverPending N = _)
  exact ⟨_, rs, _, Urb.run_pass h₁, hlast, fun k =>
    ⟨hlast.sound k, fun hk => hdue k hk.1 hk.2.1 hk.2.2⟩⟩

/-- Everything but the order of lists is read off the frames, whatever their order. -/
theorem perm {u' : Urb} {fs' relays' up' : List Str} (h : Received N start fs relays up u)
    (h' : Received N start fs' relays' up' u') (hp : fs.Perm fs') :
    u.ack.Perm u'.ack ∧ (∀ k, k ∈ u.pending ↔ k ∈ u'.pending) ∧ relays.Perm relays' ∧
      ∀ k, u.canDeliver N k = u'.canDeliver N k := by
  have hkeys : ∀ k, k ∈ fs.map packetKey ↔ k ∈ fs'.map packetKey :=
    fun k => (hp.map packetKey).mem_iff
  have hack : u.ack.Perm u'.ack := by
    rw [h.ack, h'.ack]
    exact (hp.map _).append_left _
  refine ⟨hack, fun k => by rw [h.pending, h'.pending, hkeys], ?_, fun k => ?_⟩
  · refine (List.perm_ext_iff_of_nodup h.relays.once h'.relays.once).mpr fun x => ?_
    simp only [h.relays.mem, h'.relays.mem, hkeys]
  · rw [Urb.canDeliver, Urb.canDeliver, hack.countP_eq]

end Received

/-- From any state, for any two orders of the same frames, with passes anywhere and one at the
end: the same acks up to order, the same pending keys, the same relays, one for each key that
was new, and the same messages handed up, each once. -/
theorem urb_order_independent (N : Nat) (start : Urb) {cs cs' : List UrbCall}
    (hf : ∀ f ∈ frames cs, FrameFits f) (hp : (frames cs).Perm (frames cs')) :
    ∃ u rs new u' rs' new',
      Urb.run N (cs ++ [.deliverPending]) start = .ok (u, rs, new) ∧
      Urb.run N (cs' ++ [.deliverPending]) start = .ok (u', rs', new') ∧
      u.ack.Perm u'.ack ∧ (∀ k, k ∈ u.pending ↔ k ∈ u'.pending) ∧
      rs.Perm rs' ∧ RelaysOf start.pending ((frames cs).map packetKey) rs ∧
      new.Nodup ∧ new'.Nodup ∧ ∀ k, k ∈ new ↔ k ∈ new' := by
  obtain ⟨u, rs, new, hrun, h, hnew⟩ := Received.complete cs hf
  obtain ⟨u', rs', new', hrun', h', hnew'⟩ :=
    Received.complete cs' fun f hin => hf f (hp.mem_iff.mpr hin)
  obtain ⟨hack, hpend, hrelays, hcan⟩ := h.perm h' hp
  refine ⟨u, rs, new, u', rs', new', hrun, hrun', hack, hpend, hrelays, h.relays, h.once, h'.once,
    fun k => ?_⟩
  rw [hnew, hnew', hpend, hcan]

theorem urb_order_independent_pair :
    ∃ u rs new u' rs' new',
      Urb.run 3 ([.deliver (packetText 1 2 trioFirst), .deliverPending,
        .deliver (packetText 3 2 (relayFrame 1 trioFirst))] ++ [.deliverPending])
        ⟨true, [], [], fun _ => 0⟩ = .ok (u, rs, new) ∧
      Urb.run 3 ([.deliver (packetText 3 2 (relayFrame 1 trioFirst)),
        .deliver (packetText 1 2 trioFirst)] ++ [.deliverPending])
        ⟨true, [], [], fun _ => 0⟩ = .ok (u', rs', new') ∧
      u.ack.Perm u'.ack ∧ (∀ k, k ∈ u.pending ↔ k ∈ u'.pending) ∧
      rs.Perm rs' ∧ RelaysOf [] [messageKey 1 trioFirst, messageKey 1 trioFirst] rs ∧
      new.Nodup ∧ new'.Nodup ∧ ∀ k, k ∈ new ↔ k ∈ new' := by
  refine urb_order_independent 3 ⟨true, [], [], fun _ => 0⟩ (fun f hf => ?_) (.swap _ _ _)
  rcases List.mem_cons.mp hf with rfl | hf
  · exact ⟨by decide, by decide⟩
  · obtain rfl := List.mem_singleton.mp hf
    exact ⟨by decide, by decide⟩

end DecentralizedBroadcast
