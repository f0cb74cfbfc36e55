import DecentralizedBroadcast.FifoPrefix

/-! The two ways to broadcast through FIFO: `startBroadcast` over the messages queued with
`addMessage`, and `broadcastMessage` for each. Only the first one sends the numbers. -/
set_option autoImplicit false

namespace DecentralizedBroadcast

theorem fifo_broadcastEach_eq (msgs : List Str) (f : Fifo) :
    f.broadcastEach msgs = ({ f with
      lsn := f.lsn + msgs.length
      urb := { f.urb with pending := f.urb.pending ++ msgs } }, msgs) := by
  induction msgs generalizing f with
  | nil => simp [Fifo.broadcastEach]
  | cons msg msgs ih =>
    simp only [Fifo.broadcastEach, Fifo.broadcastMessage, Urb.broadcastMessage, ih]
    simp [Nat.add_assoc, Nat.add_comm 1]

/-- Whatever the order in which URB hands up the frames of `rank`, a receiver that waits for the
first of them delivers all the messages, in the order of `msgs`. -/
def DeliversAll (rank lsn : Nat) (msgs frames : List Str) : Prop :=
  ∀ (g : Fifo) (handed : List Str), g.log = true → g.pending = [] →
    g.next[rank - 1]? = some (lsn + 1) → handed.Perm (frames.map (messageKey rank)) →
    ∃ g', g.deliverEach handed = .ok g' ∧ g'.pending = [] ∧
      g'.next[rank - 1]? = some (lsn + msgs.length + 1) ∧
      g'.processLog = (msgs.map (deliveredLog rank)).foldl addMessageLog g.processLog

/-- Both ways give URB the same frames, the messages with their numbers, and leave the same
number and log; and what comes of the frames at a receiver. -/
def FifoPathsAgree (rank : Nat) (b : Broadcast Fifo) (msgs : List Str) : Prop :=
  ∃ b₁ frames,
    (msgs.foldl Broadcast.addMessage b).startBroadcast (Fifo.startBroadcast rank) =
      .ok (b₁, frames) ∧
    (b.layer.broadcastEach msgs).2 = frames ∧ frames = numbered b.layer.lsn msgs ∧
    (b.layer.broadcastEach msgs).1.lsn = b₁.layer.lsn ∧
    (b.layer.broadcastEach msgs).1.processLog = b₁.layer.processLog ∧
    DeliversAll rank b.layer.lsn msgs frames

theorem fifo_paths {rank : Nat} (hr : rank ≤ 999) (b : Broadcast Fifo) (msgs : List Str) :
    ∃ b₁, (msgs.foldl Broadcast.addMessage b).startBroadcast (Fifo.startBroadcast rank) =
        .ok (b₁, numbered b.layer.lsn (b.messagesToBroadcast ++ msgs)) ∧
      b₁.layer.lsn = b.layer.lsn + (b.messagesToBroadcast ++ msgs).length ∧
      (b.layer.broadcastEach msgs).1.lsn = b.layer.lsn + msgs.length ∧
      b₁.layer.processLog = ((b.messagesToBroadcast ++ msgs).map sentEntry).foldl addMessageLog
        b.layer.processLog ∧
      (b.layer.broadcastEach msgs).1.processLog = b.layer.processLog ∧
      (b.layer.broadcastEach msgs).2 = msgs := by
  rw [Broadcast.foldl_addMessage, Broadcast.startBroadcast, Fifo.startBroadcast,
    fifo_startBroadcastLoop_eq hr, fifo_broadcastEach_eq]
  exact ⟨_, rfl, rfl, rfl, rfl, rfl, rfl⟩

theorem numbered_ne {lsn : Nat} {msgs : List Str} (h : msgs ≠ []) : msgs ≠ numbered lsn msgs := by
  obtain ⟨msg, rest, rfl⟩ := List.exists_cons_of_ne_nil h
  intro he
  have hlen := congrArg List.length (List.cons.inj he).1
  rw [List.length_append, List.length_cons] at hlen
  omega

/-- On the queued way nothing is lost: in whatever order a receiver is handed the messages of a
process, it delivers its batches in order. -/
theorem fifo_queued_delivered {N : Nat} (hN : N ≤ 999) {p : Nat} (hp : 1 ≤ p ∧ p ≤ N) {m : Nat}
    (hm : m ≤ 2147483647) {batches handed : List Str}
    (hb : batches = concatMessages ((List.range' 1 m).map decimal))
    (h : handed.Perm ((numbered 0 batches).map (messageKey p))) :
    ∃ g, (Fifo.new N true).deliverEach handed = .ok g ∧
      entriesOf (deliveredHeader (pad3 p)) g.processLog = batches.map (deliveredLog p) := by
  subst hb
  have hall : ∀ x ∈ handed, ∃ s, (1 ≤ s ∧ s ≤ N) ∧ x ∈ fifoMessages m s :=
    fun x hx => ⟨p, hp, h.mem_iff.mp hx⟩
  have hstart : FifoInv (fun _ => m) N (fun _ => 0) [] (Fifo.new N true) :=
    .start rfl rfl rfl fun _ => rfl
  obtain ⟨g, k, hok, hg⟩ := hstart.deliverEach (fun _ => hm) hN (by simp) hall
  refine ⟨g, hok, ?_⟩
  have hgap : (fifoMessages m p)[k p]? = none := by
    cases hx : (fifoMessages m p)[k p]? with
    | none => rfl
    | some x => exact absurd (h.mem_iff.mpr (List.mem_of_getElem? hx)) (hg.gap p hp x hx)
  rw [fifoMessages, List.getElem?_map, numbered_getElem?, Option.map_map, Option.map_eq_none_iff,
    List.getElem?_eq_none_iff] at hgap
  rw [(hg.delivered p hp).logged, List.take_of_length_le hgap]

/-- The two ways agree when nothing is to be broadcast at all, and never else: `startBroadcast`
takes along what was queued before, and `broadcastMessage` does not send the number by which a
receiver finds the message. -/
theorem fifo_paths_agree_iff {rank : Nat} (hr : rank ≤ 999) (b : Broadcast Fifo)
    (msgs : List Str) :
    FifoPathsAgree rank b msgs ↔ b.messagesToBroadcast = [] ∧ msgs = [] := by
  obtain ⟨b₁, hstart, hlsn₁, hlsn₂, hlog, hlog', hframes⟩ := fifo_paths hr b msgs
  constructor
  · rintro ⟨b₂, frames, h₂, hsame, hnumbered, hlsn, -⟩
    obtain ⟨rfl, -⟩ := Prod.mk.inj (Except.ok.inj (hstart.symm.trans h₂))
    rw [hlsn₁, hlsn₂, List.length_append] at hlsn
    refine ⟨List.length_eq_zero_iff.mp (by omega), ?_⟩
    by_contra hne
    exact numbered_ne hne (hframes.symm.trans (hsame.trans hnumbered))
  · rintro ⟨hqueue, rfl⟩
    rw [hqueue] at hstart hlsn₁ hlog
    refine ⟨b₁, _, hstart, hframes, rfl, hlsn₂.trans hlsn₁.symm, hlog'.trans hlog.symm, ?_⟩
    intro g handed _ hpending hnext hperm
    obtain rfl : handed = [] := List.perm_nil.mp hperm
    exact ⟨g, rfl, hpending, hnext, rfl⟩

theorem fifo_paths_agree_none : FifoPathsAgree 1 ⟨Fifo.new 3 true, []⟩ [] ↔
    ([] : List Str) = [] ∧ ([] : List Str) = [] :=
  fifo_paths_agree_iff (by decide) ⟨Fifo.new 3 true, []⟩ []

theorem fifo_paths_differ : ¬ FifoPathsAgree 1 ⟨Fifo.new 3 true, []⟩ [['0', '1', '1']] := by
  rintro ⟨b₁, frames, -, hsame, hnumbered, -⟩
  exact absurd (hsame.trans hnumbered) (by decide)

/-- At a receiver the queued message is delivered; of the other the id and the text are read as
number 1011, and it stays pending. -/
example :
    ((Fifo.new 3 true).deliverEach
      [messageKey 1 ['0', '1', '1', 'l', '1']]).toOption.map (fun g => (g.pending, g.processLog)) =
        some ([], [deliveredLog 1 ['0', '1', '1']]) ∧
    ((Fifo.new 3 true).deliverEach
      [messageKey 1 ['0', '1', '1']]).toOption.map (fun g => (g.pending, g.processLog)) =
        some ([messageKey 1 ['0', '1', '1']], []) := by decide

end DecentralizedBroadcast
