import DecentralizedBroadcast.StackInvariant

/-! What stands in the process logs, and where it comes from. -/
set_option autoImplicit false

namespace DecentralizedBroadcast
open History

theorem deliveredLog_injective {x x' : Nat} (hx : x ≤ 999) (hx' : x' ≤ 999) {b b' : Str}
    (h : deliveredLog x b = deliveredLog x' b') : x = x' ∧ b = b' := by
  obtain ⟨rfl, hb⟩ := messageKey_injective hx hx' (List.cons.inj h).2
  exact ⟨rfl, List.append_cancel_left hb⟩

theorem mem_logEntries {p : Nat} {tr : List Event} {x : Str} :
    x ∈ logEntries p tr ↔
      ∃ kind text, ⟨kind, p, text⟩ ∈ tr ∧ logEntry ⟨kind, p, text⟩ = some x := by
  constructor
  · intro h
    obtain ⟨⟨kind, p', text⟩, he, hx⟩ := List.mem_filterMap.mp h
    split at hx
    · rename_i hp
      obtain rfl : p' = p := hp
      exact ⟨kind, text, he, hx⟩
    · cases hx
  · rintro ⟨kind, text, he, hx⟩
    exact List.mem_filterMap.mpr ⟨_, he, by simpa using hx⟩

theorem logEntry_broadcast {cfg : Config} {past : List Event} {p : Nat} {msg text : Str}
    (h : Origin cfg past p msg text) :
    logEntry ⟨.broadcast, p, text⟩ = some (sentEntry msg) := by
  simp only [logEntry, withoutClock_broadcast h]

theorem logEntry_lcbDeliver {cfg : Config} {past : List Event} {p x : Nat} {msg text : Str}
    (h : Origin cfg past x msg text) :
    logEntry ⟨.lcbDeliver, p, messageKey x text⟩ = some (deliveredLog x msg) := by
  simp only [logEntry, deliveredEntry_messageKey h.fits, withoutClock_broadcast h]
  rfl

/-- Every entry of a log is that of a broadcast, or of the delivery of one. -/
theorem logEntries_cases {cfg : Config} {tr : List Event} (h : Sound (EventOk cfg) tr) {p : Nat}
    {e : Str} (he : e ∈ logEntries p tr) :
    (∃ msg, e = sentEntry msg) ∨ ∃ x text past rest msg,
      tr = past ++ ⟨.broadcast, x, text⟩ :: rest ∧ Origin cfg past x msg text ∧
      e = deliveredLog x msg := by
  obtain ⟨kind, text, hin, hlog⟩ := mem_logEntries.mp he
  cases kind with
  | broadcast => exact .inl ⟨_, (Option.some.inj hlog).symm⟩
  | lcbDeliver =>
    obtain ⟨x, text', ht', rfl⟩ := lcbDeliver_known h (mem_said.mpr hin)
    obtain ⟨past, rest, msg, htr, ho⟩ := broadcast_origin h ht'
    rw [logEntry_lcbDeliver ho] at hlog
    exact .inr ⟨x, text', past, rest, msg, htr, ho, (Option.some.inj hlog).symm⟩
  | beb | handUp | urbDeliver => cases hlog

structure NoCreation (s : Sys) : Prop where
  /-- A 'd' entry names its sender and a batch. -/
  named : ∀ y, ∀ e ∈ (s.proc y).processLog, e.head? = some 'd' →
    ∃ x b, x ≤ 999 ∧ e = deliveredLog x b
  sent : ∀ y x b, x ≤ 999 → deliveredLog x b ∈ (s.proc y).processLog →
    sentEntry b ∈ (s.proc x).processLog
  handedUp : ∀ y, ∀ k ∈ said .urbDeliver y s.trace,
    ∃ x, ∃ text ∈ said .broadcast x s.trace, k = messageKey x text
  /-- The copy of its own message in `pending`, without an id, is never handed up. -/
  ownCopy : ∀ y, ∀ text ∈ said .broadcast y s.trace,
    text ∈ (s.proc y).urb.pending ∧ text ∉ said .urbDeliver y s.trace

theorem no_creation (cfg : Config) (s : Sys) (hr : (stack cfg).Reachable s) : NoCreation s := by
  have h := stackInv_reachable hr
  have hlog : ∀ p e, e ∈ (s.proc p).processLog ↔ e ∈ logEntries p s.trace := by
    intro p e
    rw [(h.proc p).log, mem_foldl_addMessageLog]
    simp
  constructor
  · intro y e he hd
    rcases logEntries_cases h.sound ((hlog y e).mp he) with ⟨msg, rfl⟩ | ⟨x, _, _, _, b, _, ho, rfl⟩
    · cases hd
    · exact ⟨x, b, ho.fits, rfl⟩
  · intro y x b hx he
    rcases logEntries_cases h.sound ((hlog y _).mp he) with
      ⟨msg, hmsg⟩ | ⟨x', text, past, rest, b', htr, ho, heq⟩
    · cases hmsg
    · obtain ⟨rfl, rfl⟩ := deliveredLog_injective hx ho.fits heq
      exact (hlog x _).mpr (mem_logEntries.mpr
        ⟨.broadcast, text, by simp [htr], logEntry_broadcast ho⟩)
  · intro y k hk
    obtain ⟨x, text, ht, rfl⟩ := urbDeliver_known h.sound hk
    exact ⟨x, text, ht, rfl⟩
  · intro y text ht
    exact ⟨((h.proc y).pending text).mpr (.inl ht),
      fun hin => broadcast_ne_key h.sound ht (urbDeliver_known h.sound hin)⟩

theorem no_creation_trio :
    deliveredLog 1 ['0', '1', '1'] ∈ (((stack trio).after trioDelivered).proc 3).processLog ∧
    sentEntry ['0', '1', '1'] ∈ (((stack trio).after trioDelivered).proc 1).processLog := by
  have hd : deliveredLog 1 ['0', '1', '1'] ∈
      (((stack trio).after trioDelivered).proc 3).processLog := by decide
  exact ⟨hd, (no_creation trio _ ((stack trio).reachable_after trioDelivered)).sent 3 1 _
    (by decide) hd⟩

end DecentralizedBroadcast
