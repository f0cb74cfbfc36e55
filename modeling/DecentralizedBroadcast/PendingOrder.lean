import DecentralizedBroadcast.LcbCalls

/-! The pending loop of LCB is confluent: in whatever order the messages come and whenever
the passes are made, the same messages are delivered in the end and the same ones wait. -/
set_option autoImplicit false

namespace DecentralizedBroadcast
open ClockedDelivery

/-- How many messages of `z` must be delivered before `k`, from the counts `vc` on. -/
def needFrom (vc : Int → Int) (k : Str) (z : Int) : Nat :=
  (((clockOf k).find? z).getD (vc z) - vc z).toNat

theorem isInferior_needFrom {vc : Int → Int} {ds : List Str} {k : Str} :
    Lcb.isInferior (fun z => vc z + count keyOrigin ds z) (clockOf k) = true ↔
      Ready keyOrigin (needFrom vc) ds k := by
  simp only [Lcb.isInferior, List.all_eq_true, decide_eq_true_eq, Ready, needFrom]
  constructor
  · intro h z
    cases hf : (clockOf k).find? z with
    | none => simp
    | some n =>
      have hle : n ≤ vc z + count keyOrigin ds z := h (z, n) (OrderedMap.find?_eq_some.mp hf)
      rw [Option.getD_some]
      omega
  · rintro h ⟨z, n⟩ he
    have := h z
    rw [OrderedMap.find?_eq_some.mpr he, Option.getD_some] at this
    simp only
    omega

/-- `VC` is a map of ints. A delivery adds to a count and nothing takes away from it, so the counts
were ints all the way to a state in which they are. -/
def Lcb.CountsFit (l : Lcb) : Prop := ∀ z, -intMax - 1 ≤ l.vc z ∧ l.vc z ≤ intMax

/-- Where LCB is when it started from `start`, was handed `arrived` and delivered `out`. -/
structure Progress (start : Lcb) (arrived out : List Str) (l : Lcb) : Prop where
  active : l.active = start.active
  lsn : l.lsn = start.lsn
  vc : l.vc = fun z => start.vc z + count keyOrigin out z
  pairs : ∀ k w, (k, w) ∈ l.pairs.entries ↔ k ∈ arrived ∧ k ∉ out ∧ w = clockOf k
  orderly : Orderly keyOrigin (needFrom start.vc) out
  received : ∀ k ∈ out, k ∈ arrived

namespace Progress
variable {start l : Lcb} {arrived out : List Str}

theorem empty (h : start.pairs.entries = []) : Progress start [] [] start where
  active := rfl
  lsn := rfl
  vc := by
    funext z
    simp [count]
  pairs := by simp [h]
  orderly := History.sound_nil _
  received := by simp

theorem deliver (h : Progress start arrived out l) {msg : Str} (hr : Readable msg)
    (hnew : msg ∉ arrived) : ∃ l', l.deliver msg = .ok l' ∧
      Progress start (arrived ++ [msg]) out l' := by
  refine ⟨_, hr.deliver fun w hw => hnew ((h.pairs msg w).mp hw).1, h.active, h.lsn, h.vc, ?_,
    h.orderly, fun k hk => by simp [h.received k hk]⟩
  intro k w
  have hout : msg ∉ out := fun hin => hnew (h.received msg hin)
  rw [OrderedMap.mem_insert, h.pairs, List.mem_append, List.mem_singleton, Prod.mk.injEq]
  grind

theorem deliverOne (h : Progress start arrived out l) {k : Str} {w : VectorClock}
    (hin : (k, w) ∈ l.pairs.entries) (hready : Lcb.isInferior l.vc w = true) :
    Progress start arrived (out ++ [k]) { l with
      vc := Function.update l.vc (keyOrigin k) (l.vc (keyOrigin k) + 1)
      pairs := l.pairs.erase k } := by
  obtain ⟨hk, hnew, rfl⟩ := (h.pairs k w).mp hin
  rw [h.vc, isInferior_needFrom] at hready
  refine ⟨h.active, h.lsn, ?_, ?_, History.sound_snoc.mpr ⟨h.orderly, hnew, hready⟩, ?_⟩
  · funext z
    by_cases hz : z = keyOrigin k
    · subst hz
      simp [h.vc, count_snoc, Int.add_assoc]
    · simp [h.vc, count_snoc, hz, Ne.symm hz]
  · intro k' w'
    rw [OrderedMap.mem_erase, h.pairs, List.mem_append, List.mem_singleton]
    grind
  · intro x hx
    rcases List.mem_append.mp hx with hx | hx
    · exact h.received x hx
    · exact List.mem_singleton.mp hx ▸ hk

theorem deliverLoop (h : Progress start arrived out l) (hr : ∀ k ∈ arrived, Readable k)
    {es : List (Str × VectorClock)} (hin : ∀ e ∈ es, e ∈ l.pairs.entries)
    (hnd : (es.map Prod.fst).Nodup) : ∃ l' new, Lcb.deliverLoop es l = .ok (l', new) ∧
      Progress start arrived (out ++ new.map Prod.fst) l' ∧
      l'.pairs.entries.length + new.length = l.pairs.entries.length := by
  induction es generalizing l out with
  | nil => exact ⟨l, [], rfl, by simpa using h, by simp⟩
  | cons e es ih =>
    obtain ⟨k, w⟩ := e
    obtain ⟨hk, hnd⟩ := List.nodup_cons.mp hnd
    have hkin := hin (k, w) (by simp)
    by_cases hready : Lcb.isInferior l.vc w = true
    · have hread := hr k ((h.pairs k w).mp hkin).1
      have hrest : ∀ e ∈ es, e ∈ (l.pairs.erase k).entries := by
        intro e he
        have hne : e.1 ≠ k := fun hx => hk (List.mem_map.mpr ⟨e, he, hx⟩)
        exact OrderedMap.mem_erase.mpr ⟨hin e (by simp [he]), hne⟩
      obtain ⟨l', new, hloop, hp, hlen⟩ := ih (h.deliverOne hkin hready) hrest hnd
      obtain ⟨entry, -, hall⟩ := deliverLoop_cons hread hready hloop
      refine ⟨l', (k, entry) :: new, hall, by simpa using hp, ?_⟩
      have := OrderedMap.length_erase hkin
      simp only at hlen
      rw [List.length_cons]
      omega
    · obtain ⟨l', new, hloop, hp⟩ := ih h (fun e he => hin e (by simp [he])) hnd
      refine ⟨l', new, ?_, hp⟩
      rw [Lcb.deliverLoop, if_neg hready]
      exact hloop

theorem deliverPending (h : Progress start arrived out l) (hr : ∀ k ∈ arrived, Readable k) :
    ∃ l' new, l.deliverPending = .ok (l', new) ∧
      Progress start arrived (out ++ new.map Prod.fst) l' ∧
      l'.pairs.entries.length + new.length = l.pairs.entries.length :=
  h.deliverLoop hr (fun _ he => he) l.pairs.nodup_keys

theorem run (h : Progress start arrived out l) {cs : List LcbCall}
    (hr : ∀ k ∈ arrived ++ arrivals cs, Readable k) (hnd : (arrived ++ arrivals cs).Nodup) :
    ∃ l' new, Lcb.run cs l = .ok (l', new) ∧
      Progress start (arrived ++ arrivals cs) (out ++ new.map Prod.fst) l' := by
  induction cs generalizing l arrived out with
  | nil => exact ⟨l, [], rfl, by simpa [arrivals] using h⟩
  | cons c cs ih =>
    cases c with
    | deliver msg =>
      have hcons : arrived ++ arrivals (.deliver msg :: cs) =
          (arrived ++ [msg]) ++ arrivals cs := by simp [arrivals]
      rw [hcons] at hr hnd ⊢
      have hnew : msg ∉ arrived := by
        have := (List.nodup_append.mp (List.nodup_append.mp hnd).1).2.2
        exact fun hin => this msg hin msg (by simp) rfl
      obtain ⟨l₁, hd, hp⟩ := h.deliver (hr msg (by simp)) hnew
      obtain ⟨l', new, hrun, hp⟩ := ih hp hr hnd
      refine ⟨l', new, ?_, hp⟩
      simp only [Lcb.run, Lcb.call, bind_eq_ok]
      exact ⟨_, ⟨l₁, hd, rfl⟩, _, hrun, rfl⟩
    | deliverPending =>
      obtain ⟨l₁, new₁, hd, hp, -⟩ := h.deliverPending fun k hk => hr k (by simp [hk])
      obtain ⟨l', new, hrun, hp⟩ := ih hp hr hnd
      refine ⟨l', new₁ ++ new, ?_, by simpa [arrivals] using hp⟩
      simp only [Lcb.run, Lcb.call, bind_eq_ok]
      exact ⟨_, hd, _, hrun, rfl⟩

theorem stuck (h : Progress start arrived out l) (hq : l.Quiet) :
    ∀ k ∈ arrived, k ∉ out → ¬ Ready keyOrigin (needFrom start.vc) out k := by
  intro k hk hnew hready
  have hnot := (deliverLoop_nothing hq).2 (k, clockOf k) ((h.pairs k _).mpr ⟨hk, hnew, rfl⟩)
  rw [h.vc, ← Bool.not_eq_true, isInferior_needFrom] at hnot
  exact hnot hready

/-- Passes end: each that changes something takes an entry out of `pairs`. -/
theorem settles (h : Progress start arrived out l) (hr : ∀ k ∈ arrived, Readable k) :
    ∃ n ≤ l.pairs.entries.length, ∃ l' new,
      Lcb.run (List.replicate n .deliverPending) l = .ok (l', new) ∧ l'.Quiet := by
  induction hlen : l.pairs.entries.length using Nat.strongRecOn generalizing l out with
  | ind n ih =>
    obtain ⟨l₁, new₁, hd, hp, hlen₁⟩ := h.deliverPending hr
    by_cases hnew : new₁ = []
    · subst hnew
      obtain ⟨rfl, -⟩ := deliverLoop_nothing hd
      exact ⟨0, by omega, l₁, [], rfl, hd⟩
    · have hpos := List.length_pos_iff.mpr hnew
      obtain ⟨k, hk, l', new, hrun, hq⟩ := ih _ (by omega) hp rfl
      refine ⟨k + 1, by omega, l', new₁ ++ new, ?_, hq⟩
      simp only [List.replicate_succ, Lcb.run, Lcb.call, bind_eq_ok]
      exact ⟨_, hd, _, hrun, rfl⟩

theorem countsFit {msgs : List Str} (h : Progress start arrived out l) (hsub : arrived.Subperm msgs)
    (hfit : ∀ z, -intMax - 1 ≤ start.vc z ∧ start.vc z + count keyOrigin msgs z ≤ intMax) :
    l.CountsFit := by
  intro z
  have hle : count keyOrigin out z ≤ count keyOrigin msgs z :=
    count_le_of_subset keyOrigin h.orderly.nodup (fun k hk => hsub.subset (h.received k hk)) z
  obtain ⟨hlow, hhigh⟩ := hfit z
  simp only [h.vc]
  omega

theorem unique {l' : Lcb} {out' arrived' : List Str} (h : Progress start arrived out l)
    (h' : Progress start arrived' out' l') (hp : arrived.Perm arrived')
    (hq : l.Quiet) (hq' : l'.Quiet) :
    l = l' ∧ out.Perm out' := by
  have hmem : ∀ k, k ∈ arrived ↔ k ∈ arrived' := fun k => hp.mem_iff
  have hrec : ∀ k ∈ out, k ∈ {k | k ∈ arrived} := h.received
  have hout : out.Perm out' := h.orderly.perm_of_stuck h'.orderly hrec
    (fun k hk => (hmem k).mpr (h'.received k hk)) (h.stuck hq)
    (fun k hk => h'.stuck hq' k ((hmem k).mp hk))
  have hvc : l.vc = l'.vc := by
    rw [h.vc, h'.vc]
    funext z
    rw [count, count, deliveriesFrom, deliveriesFrom, (hout.filter _).length_eq]
  have hpairs : l.pairs = l'.pairs := by
    refine OrderedMap.ext_mem fun e => ?_
    obtain ⟨k, w⟩ := e
    rw [h.pairs, h'.pairs, hmem, hout.mem_iff]
  refine ⟨?_, hout⟩
  have hactive := h.active.trans h'.active.symm
  have hlsn := h.lsn.trans h'.lsn.symm
  cases l
  cases l'
  simp_all

end Progress

/-- From any counts and an empty `pairs`, whatever the order in which the messages arrive and
wherever the passes fall: no call fails, at most as many passes as `pairs` has entries change
something, and when a pass finds nothing more the state and the delivered messages are the same.
The counts are ints throughout if the ints reach for all messages of each process. -/
theorem pending_confluent {l : Lcb} (hl : l.pairs.entries = []) {msgs : List Str}
    (hnd : msgs.Nodup) (hr : ∀ k ∈ msgs, Readable k)
    (hfit : ∀ z, -intMax - 1 ≤ l.vc z ∧ l.vc z + count keyOrigin msgs z ≤ intMax) :
    (∀ cs, (arrivals cs).Subperm msgs → ∃ l₁ out, Lcb.run cs l = .ok (l₁, out) ∧ l₁.CountsFit ∧
      ∃ n ≤ l₁.pairs.entries.length, ∃ l₂ out',
        Lcb.run (List.replicate n .deliverPending) l₁ = .ok (l₂, out') ∧ l₂.Quiet) ∧
    ∀ cs cs' l₁ l₂ out out', (arrivals cs).Perm msgs → (arrivals cs').Perm msgs →
      Lcb.run cs l = .ok (l₁, out) → Lcb.run cs' l = .ok (l₂, out') → l₁.Quiet → l₂.Quiet →
      l₁ = l₂ ∧ (out.map Prod.fst).Perm (out'.map Prod.fst) := by
  have hrun : ∀ cs, (arrivals cs).Subperm msgs → ∃ l₁ out, Lcb.run cs l = .ok (l₁, out) ∧
      Progress l (arrivals cs) (out.map Prod.fst) l₁ := by
    intro cs hp
    obtain ⟨ms, hperm, hsub⟩ := hp
    have honce : (arrivals cs).Nodup := hperm.nodup_iff.mp (hnd.sublist hsub)
    have hin : ∀ k ∈ arrivals cs, k ∈ msgs := fun k hk => hsub.subset (hperm.mem_iff.mpr hk)
    have h := (Progress.empty hl).run (fun k hk => hr k (hin k (by simpa using hk)))
      (by simpa using honce)
    simpa using h
  refine ⟨fun cs hp => ?_, fun cs cs' l₁ l₂ out out' hp hp' h₁ h₂ hq hq' => ?_⟩
  · obtain ⟨l₁, out, h₁, hprog⟩ := hrun cs hp
    exact ⟨l₁, out, h₁, hprog.countsFit hp hfit, hprog.settles fun k hk => hr k (hp.subset hk)⟩
  · obtain ⟨l₃, out₃, h₃, hprog⟩ := hrun cs hp.subperm
    obtain ⟨l₄, out₄, h₄, hprog'⟩ := hrun cs' hp'.subperm
    obtain ⟨rfl, rfl⟩ := Prod.mk.inj (Except.ok.inj (h₁.symm.trans h₃))
    obtain ⟨rfl, rfl⟩ := Prod.mk.inj (Except.ok.inj (h₂.symm.trans h₄))
    exact hprog.unique hprog' (hp.trans hp'.symm) hq hq'

/-- The second message comes first and waits for the first one. -/
theorem pending_confluent_pair :
    ∃ l₁ out, Lcb.run [.deliver (messageKey 2 trioSecond), .deliverPending,
        .deliver (messageKey 1 trioFirst)] ⟨true, 0, fun _ => 0, .empty⟩ = .ok (l₁, out) ∧
      l₁.CountsFit ∧ ∃ n ≤ l₁.pairs.entries.length, ∃ l₂ out',
        Lcb.run (List.replicate n .deliverPending) l₁ = .ok (l₂, out') ∧ l₂.Quiet := by
  have hr : ∀ k ∈ [messageKey 2 trioSecond, messageKey 1 trioFirst], Readable k := by
    intro k hk
    rcases List.mem_cons.mp hk with rfl | hk
    · exact ⟨rfl, rfl, _, rfl⟩
    · obtain rfl := List.mem_singleton.mp hk
      exact ⟨rfl, rfl, _, rfl⟩
  have hfit : ∀ z : Int, -intMax - 1 ≤ 0 ∧
      0 + (count keyOrigin [messageKey 2 trioSecond, messageKey 1 trioFirst] z : Int) ≤ intMax := by
    intro z
    have hle : count keyOrigin [messageKey 2 trioSecond, messageKey 1 trioFirst] z ≤ 2 :=
      List.length_filter_le _ _
    simp only [intMax]
    omega
  exact (pending_confluent rfl (by decide) hr hfit).1 _ (List.Perm.refl _).subperm

end DecentralizedBroadcast
