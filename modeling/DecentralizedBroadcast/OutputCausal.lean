import DecentralizedBroadcast.OutputFiles

/-! Localized causal order as the output files show it: what stands before a message in the file of
its sender stands before it in the file of everyone who delivered it. -/
set_option autoImplicit false

namespace DecentralizedBroadcast
open History ClockedDelivery

/-- In the files, message `m'` directly precedes `m`: (process, number). -/
inductive FilePast (cfg : Config) (files : Nat → List Line) : Nat × Nat → Nat × Nat → Prop where
  | own {p j k : Nat} {before after : List Line} (file : files p = before ++ .b k :: after)
      (earlier : .b j ∈ before) : FilePast cfg files (p, j) (p, k)
  | dependency {p x j k : Nat} {before after : List Line}
      (file : files p = before ++ .b k :: after) (delivered : .d x j ∈ before)
      (dep : (x : Int) ∈ cfg.localizedIds p) : FilePast cfg files (x, j) (p, k)

theorem flatMap_split {α β : Type*} {f : α → List β} {l : List α} {before after : List β} {x : β}
    (h : l.flatMap f = before ++ x :: after) : ∃ l₁ e l₂ a b, l = l₁ ++ e :: l₂ ∧
      f e = a ++ x :: b ∧ before = l₁.flatMap f ++ a := by
  induction l generalizing before with
  | nil => simp at h
  | cons e l ih =>
    have later : ∀ c, before = f e ++ c → l.flatMap f = c ++ x :: after → ∃ l₁ e' l₂ a b,
        e :: l = l₁ ++ e' :: l₂ ∧ f e' = a ++ x :: b ∧ before = l₁.flatMap f ++ a := by
      intro c hb hc
      obtain ⟨l₁, e', l₂, a, b, rfl, he', rfl⟩ := ih hc
      exact ⟨e :: l₁, e', l₂, a, b, rfl, he', by simp [hb]⟩
    rw [List.flatMap_cons] at h
    rcases List.append_eq_append_iff.mp h with ⟨c, hb, hc⟩ | ⟨c, he, hc⟩
    · exact later c hb hc
    · cases c with
      | nil => exact later [] (by simpa using he.symm) (by simpa using hc.symm)
      | cons y c =>
        obtain ⟨rfl, -⟩ := List.cons.inj hc
        exact ⟨[], e, l, before, c, rfl, he, rfl⟩

theorem group_unique {gs : List (List Nat)} (hnd : gs.flatten.Nodup) {i j k : Nat}
    {g g' : List Nat} (hi : gs[i]? = some g) (hj : gs[j]? = some g') (hk : k ∈ g) (hk' : k ∈ g') :
    i = j := by
  obtain ⟨hilt, rfl⟩ := List.getElem?_eq_some_iff.mp hi
  obtain ⟨hjlt, rfl⟩ := List.getElem?_eq_some_iff.mp hj
  have hdisjoint := List.pairwise_iff_getElem.mp (List.nodup_flatten.mp hnd).2
  rcases Nat.lt_trichotomy i j with hlt | heq | hlt
  · exact (hdisjoint i j hilt hjlt hlt hk hk').elim
  · exact heq
  · exact (hdisjoint j i hjlt hilt hlt hk' hk).elim

theorem getElem?_of_take {α : Type*} {l : List α} {i : Nat} {a : α}
    (h : l.take i ++ [a] = l.take (i + 1)) : l[i]? = some a := by
  rw [List.take_add_one] at h
  have hlast := List.append_cancel_left h
  cases hi : l[i]? with
  | none => simp [hi] at hlast
  | some b => simpa [hi] using hlast.symm

/-- Each entry came into the log by one event. -/
def Timely (groups : Nat → List (List Nat)) (tr : List Event) (p : Nat) (es : List Entry) : Prop :=
  ∀ es₁ e es₂, es = es₁ ++ e :: es₂ → ∃ past ev rest, tr = past ++ ev :: rest ∧
    Logged groups past p es₁ ∧ Logged groups (past ++ [ev]) p (es₁ ++ [e])

section Timely
variable {cfg : Config} {groups : Nat → List (List Nat)} {tr : List Event} {p : Nat}
  {es : List Entry}

theorem Timely.later (h : Timely groups tr p es) (ev : Event) :
    Timely groups (tr ++ [ev]) p es := by
  intro es₁ e es₂ hsplit
  obtain ⟨past, ev', rest, rfl, hbefore, hafter⟩ := h es₁ e es₂ hsplit
  exact ⟨past, ev', rest ++ [ev], by simp, hbefore, hafter⟩

theorem Timely.snoc (h : Timely groups tr p es) (hes : Logged groups tr p es) {ev : Event}
    {x : Entry} (hnew : Logged groups (tr ++ [ev]) p (es ++ [x])) :
    Timely groups (tr ++ [ev]) p (es ++ [x]) := by
  intro es₁ e es₂ hsplit
  rcases List.eq_nil_or_concat es₂ with rfl | ⟨es₂, y, rfl⟩
  · obtain ⟨rfl, hlast⟩ := List.append_inj' hsplit rfl
    obtain rfl := List.singleton_inj.mp hlast
    exact ⟨tr, ev, [], rfl, hes, hnew⟩
  · rw [List.concat_eq_append, ← List.cons_append, ← List.append_assoc] at hsplit
    exact h.later ev es₁ e es₂ (List.append_inj' hsplit rfl).1

theorem exists_timely (hg : GroupsOf cfg groups) (h : Sound (EventOk cfg) tr) (p : Nat) :
    ∃ es, Logged groups tr p es ∧ Timely groups tr p es := by
  induction tr using List.reverseRecOn with
  | nil =>
    obtain ⟨es, hes⟩ := exists_logged hg h p
    have hnil : es = [] := by simpa [logEntries] using hes.text.symm
    subst hnil
    exact ⟨[], hes, by intro es₁ e es₂ hsplit; simp at hsplit⟩
  | append_singleton tr e ih =>
    obtain ⟨htr, ok⟩ := sound_snoc.mp h
    obtain ⟨es, hes, htime⟩ := ih htr
    obtain ⟨kind, q, text⟩ := e
    by_cases hq : q = p
    · subst hq
      cases kind with
      | beb | handUp | urbDeliver =>
        refine ⟨es, hes.other (by simp [logEntries, logEntry]) ?_, htime.later _⟩
        rintro k (rfl | rfl) <;> simp
      | broadcast =>
        obtain ⟨g, hes'⟩ := hes.broadcast hg ok
        exact ⟨_, hes', htime.snoc hes hes'⟩
      | lcbDeliver =>
        obtain ⟨x, g, hes'⟩ := hes.lcbDeliver hg h
        exact ⟨_, hes', htime.snoc hes hes'⟩
    · exact ⟨es, hes.other (by simp [logEntries, hq]) fun k _ => by simp [hq], htime.later _⟩

theorem Logged.sent_event {past : List Event} {ev : Event} {g : List Nat}
    (hes : Logged groups past p es) (hnew : Logged groups (past ++ [ev]) p (es ++ [.sent g])) :
    ∃ text, ev = ⟨.broadcast, p, text⟩ ∧
      (groups p)[(said .broadcast p past).length]? = some g := by
  have hsent := hnew.sent
  rw [List.filterMap_append, hes.sent] at hsent
  obtain ⟨kind, q, text⟩ := ev
  rw [said_append, said_singleton] at hsent
  by_cases hev : kind = .broadcast ∧ q = p
  · obtain ⟨rfl, rfl⟩ := hev
    rw [if_pos ⟨rfl, rfl⟩, List.length_append] at hsent
    exact ⟨text, rfl, getElem?_of_take hsent⟩
  · simp [hev, Entry.sent?] at hsent

theorem Logged.delivered_event {past : List Event} {ev : Event} {x : Nat} {g : List Nat}
    (hes : Logged groups past p es)
    (hnew : Logged groups (past ++ [ev]) p (es ++ [.delivered x g])) :
    ∃ k, ev = ⟨.lcbDeliver, p, k⟩ ∧ keyOrigin k = x ∧
      (groups x)[count keyOrigin (said .lcbDeliver p past) x]? = some g := by
  have hdel := hnew.delivered x
  rw [List.filterMap_append, hes.delivered] at hdel
  obtain ⟨kind, q, k⟩ := ev
  rw [said_append, said_singleton] at hdel
  by_cases hev : kind = .lcbDeliver ∧ q = p
  · obtain ⟨rfl, rfl⟩ := hev
    rw [if_pos ⟨rfl, rfl⟩, count_snoc] at hdel
    by_cases hk : keyOrigin k = x
    · rw [if_pos hk] at hdel
      refine ⟨k, rfl, hk, getElem?_of_take ?_⟩
      simpa [Entry.from?] using hdel
    · simp [hk, Entry.from?] at hdel
  · simp [hev, Entry.from?] at hdel

theorem Timely.b_line (h : Timely groups tr p es) {before after : List Line} {k : Nat}
    (hb : es.flatMap Entry.lines = before ++ .b k :: after) :
    ∃ past text rest es₁ a b, tr = past ++ ⟨.broadcast, p, text⟩ :: rest ∧
      Logged groups past p es₁ ∧
      (groups p)[(said .broadcast p past).length]? = some (a ++ k :: b) ∧
      before = es₁.flatMap Entry.lines ++ a.map .b := by
  obtain ⟨es₁, e, es₂, a, b, rfl, hlines, rfl⟩ := flatMap_split hb
  obtain ⟨past, ev, rest, rfl, hbefore, hafter⟩ := h es₁ e es₂ rfl
  cases e with
  | sent g =>
    obtain ⟨text, rfl, hg⟩ := hbefore.sent_event hafter
    obtain ⟨a, b', rfl, rfl, hmap⟩ := List.map_eq_append_iff.mp hlines
    obtain ⟨k', b, rfl, hk, -⟩ := List.map_eq_cons_iff.mp hmap
    cases hk
    exact ⟨past, text, rest, es₁, a, b, rfl, hbefore, hg, rfl⟩
  | delivered x g =>
    obtain ⟨a, b', rfl, rfl, hmap⟩ := List.map_eq_append_iff.mp hlines
    obtain ⟨k', b, rfl, hk, -⟩ := List.map_eq_cons_iff.mp hmap
    cases hk

theorem Timely.d_line (h : Timely groups tr p es) {before after : List Line} {x k : Nat}
    (hd : es.flatMap Entry.lines = before ++ .d x k :: after) :
    ∃ past key rest es₁ a b, tr = past ++ ⟨.lcbDeliver, p, key⟩ :: rest ∧
      Logged groups past p es₁ ∧ keyOrigin key = x ∧
      (groups x)[count keyOrigin (said .lcbDeliver p past) x]? = some (a ++ k :: b) ∧
      before = es₁.flatMap Entry.lines ++ a.map (.d x) := by
  obtain ⟨es₁, e, es₂, a, b, rfl, hlines, rfl⟩ := flatMap_split hd
  obtain ⟨past, ev, rest, rfl, hbefore, hafter⟩ := h es₁ e es₂ rfl
  cases e with
  | sent g =>
    obtain ⟨a, b', rfl, rfl, hmap⟩ := List.map_eq_append_iff.mp hlines
    obtain ⟨k', b, rfl, hk, -⟩ := List.map_eq_cons_iff.mp hmap
    cases hk
  | delivered y g =>
    obtain ⟨key, rfl, ho, hg⟩ := hbefore.delivered_event hafter
    obtain ⟨a, b', rfl, rfl, hmap⟩ := List.map_eq_append_iff.mp hlines
    obtain ⟨k', b, rfl, hk, -⟩ := List.map_eq_cons_iff.mp hmap
    cases hk
    exact ⟨past, key, rest, es₁, a, b, rfl, hbefore, ho, hg, rfl⟩

end Timely

/-- The line of `k` stands in the batch that `p` broadcast with it, and so `q` has delivered by
then what `p` had, of itself and of those it depends on. -/
theorem same_batch {cfg : Config} {groups : Nat → List (List Nat)} (hg : GroupsOf cfg groups)
    {tr past rest past' rest' : List Event} {p q k : Nat} {text key : Str} {g g' : List Nat}
    (h : Sound (EventOk cfg) tr) (htr : tr = past ++ ⟨.broadcast, p, text⟩ :: rest)
    (hi : (groups p)[(said .broadcast p past).length]? = some g) (hk : k ∈ g)
    (htr' : tr = past' ++ ⟨.lcbDeliver, q, key⟩ :: rest') (ho : keyOrigin key = p)
    (hi' : (groups p)[count keyOrigin (said .lcbDeliver q past') p]? = some g') (hk' : k ∈ g') :
    count keyOrigin (said .lcbDeliver q past') p = (said .broadcast p past).length ∧
    ∀ x : Nat, (x : Int) ∈ cfg.localizedIds p →
      count keyOrigin (said .lcbDeliver p past) x ≤
        count keyOrigin (said .lcbDeliver q past') x := by
  have hflat : (groups p).flatten.Nodup := (hg p).2.1 ▸ List.nodup_range'
  have hnumber := group_unique hflat hi' hi hk' hk
  have hsound : Sound (EventOk cfg) (past' ++ [⟨.lcbDeliver, q, key⟩]) := by
    rw [← List.singleton_append, ← List.append_assoc] at htr'
    exact (htr' ▸ h).past
  have hcount := lcbDeliver_number hsound
  rw [ho, hnumber] at hcount
  -- the key is that of the broadcast with this number
  have hdelivered : key ∈ said .lcbDeliver q tr := mem_said.mpr (by simp [htr'])
  obtain ⟨y, text', ht', rfl⟩ := lcbDeliver_known h hdelivered
  rw [keyOrigin_messageKey (broadcast_fits h ht').2.2, Int.ofNat_inj] at ho
  subst ho
  obtain ⟨i, hti⟩ := List.getElem?_of_mem ht'
  rw [number_broadcast h hti] at hcount
  have htext : (said .broadcast y tr)[(said .broadcast y past).length]? = some text := by
    rw [htr, said_append, List.getElem?_append_right (Nat.le_refl _), Nat.sub_self,
      ← List.singleton_append, said_append, said_singleton]
    simp
  rw [hcount, htext] at hti
  obtain rfl := Option.some.inj hti
  obtain ⟨msg, horigin⟩ := (h past _ rest htr).origin
  have hpast : Sound (EventOk cfg) past := (htr ▸ h).past
  have hready : Ready keyOrigin need (said .lcbDeliver q past') (messageKey y text) := by
    have ok := h past' _ rest' htr'
    cases ok with
    | lcbDeliver received new ready => exact isInferior_iff.mp ready
  refine ⟨hnumber, fun x hx => Nat.le_trans ?_ (hready x)⟩
  rw [horigin.need hpast]
  split
  · rename_i hxy
    rw [hxy]
    exact count_le_length hpast y y
  · exact Nat.le_refl _

theorem mem_filterMap_d {ls : List Line} {x j : Nat} :
    j ∈ ls.filterMap (Line.d? x) ↔ .d x j ∈ ls := by
  rw [List.mem_filterMap]
  constructor
  · rintro ⟨l, hl, hj⟩
    cases l with
    | b k => cases hj
    | d y k =>
      simp only [Line.d?, Option.ite_none_right_eq_some, Option.some.injEq] at hj
      obtain ⟨rfl, rfl⟩ := hj
      exact hl
  · exact fun hl => ⟨_, hl, if_pos rfl⟩

theorem mem_filterMap_b {ls : List Line} {j : Nat} :
    j ∈ ls.filterMap Line.b? ↔ .b j ∈ ls := by
  rw [List.mem_filterMap]
  constructor
  · rintro ⟨l, hl, hj⟩
    cases l with
    | b k =>
      cases hj
      exact hl
    | d y k => cases hj
  · exact fun hl => ⟨_, hl, rfl⟩

section Files
variable {cfg : Config} {groups : Nat → List (List Nat)} {tr : List Event} {es : Nat → List Entry}
  (hg : GroupsOf cfg groups) (h : Sound (EventOk cfg) tr) (ht : ∀ p, Timely groups tr p (es p))
include hg h ht

theorem FilePast.before {m' m : Nat × Nat}
    (hpast : FilePast cfg (fun p => (es p).flatMap Entry.lines) m' m) {q : Nat}
    {before after : List Line}
    (hq : (es q).flatMap Entry.lines = before ++ .d m.1 m.2 :: after) :
    .d m'.1 m'.2 ∈ before := by
  cases hpast with
  | @own p j k _ _ file earlier =>
    obtain ⟨past', key, rest', es', a', b', htr', hes', ho, hi', rfl⟩ := (ht q).d_line hq
    obtain ⟨past, text, rest, es₁, a, b, htr, hes₁, hi, rfl⟩ := (ht p).b_line file
    obtain ⟨hnumber, -⟩ := same_batch hg h htr hi List.mem_append_cons_self htr' ho hi'
      List.mem_append_cons_self
    rcases List.mem_append.mp earlier with hin | hin
    · rw [← mem_filterMap_b, hes₁.lines_b] at hin
      refine List.mem_append_left _ (mem_filterMap_d.mp ?_)
      rwa [hes'.lines_d, hnumber]
    · -- within the batch, in which `k` stands once
      rw [hnumber, hi] at hi'
      have hbatch := Option.some.inj hi'
      have hflat : (groups p).flatten.Nodup := (hg p).2.1 ▸ List.nodup_range'
      have hnd : (a ++ k :: b).Nodup :=
        (List.nodup_flatten.mp hflat).1 _ (List.mem_of_getElem? hi)
      have hk := (List.nodup_cons.mp (List.nodup_middle.mp hnd)).1
      rw [List.mem_append, not_or] at hk
      obtain ⟨rfl, -⟩ := (List.append_cons_inj_of_notMem hk.1 hk.2).mp hbatch
      obtain ⟨i, hi, heq⟩ := List.mem_map.mp hin
      cases heq
      exact List.mem_append_right _ (List.mem_map_of_mem hi)
  | @dependency p x j k _ _ file delivered dep =>
    obtain ⟨past', key, rest', es', a', b', htr', hes', ho, hi', rfl⟩ := (ht q).d_line hq
    obtain ⟨past, text, rest, es₁, a, b, htr, hes₁, hi, rfl⟩ := (ht p).b_line file
    obtain ⟨-, hcover⟩ := same_batch hg h htr hi List.mem_append_cons_self htr' ho hi'
      List.mem_append_cons_self
    have hin := List.mem_append.mp delivered
    simp only [List.mem_map, reduceCtorEq, and_false, exists_false, or_false] at hin
    rw [← mem_filterMap_d, hes₁.lines_d] at hin
    refine List.mem_append_left _ (mem_filterMap_d.mp ?_)
    rw [hes'.lines_d]
    exact (flatten_take_mono (hcover x dep)).subset hin

/-- So stands what precedes it over some way. -/
theorem FilePast.before_all {m' m : Nat × Nat}
    (hpast : Relation.TransGen (FilePast cfg fun p => (es p).flatMap Entry.lines) m' m) {q : Nat}
    {before after : List Line}
    (hq : (es q).flatMap Entry.lines = before ++ .d m.1 m.2 :: after) :
    .d m'.1 m'.2 ∈ before := by
  induction hpast using Relation.TransGen.head_induction_on with
  | single hd => exact hd.before hg h ht hq
  | head hd _ ih =>
    obtain ⟨before₁, between, rfl⟩ := List.append_of_mem ih
    rw [List.append_assoc, List.cons_append] at hq
    exact List.mem_append_left _ (hd.before hg h ht hq)

end Files

theorem lineText_injective : Function.Injective Line.text := by
  intro l l' h
  have hwords := congrArg (fun t => splitWords t []) h
  cases l with
  | b k =>
    cases l' with
    | b k' =>
      simp only [splitWords_b, List.cons.injEq, and_true, true_and] at hwords
      rw [decimal_injective hwords]
    | d x' k' => simp [splitWords_b, splitWords_d] at hwords
  | d x k =>
    cases l' with
    | b k' => simp [splitWords_b, splitWords_d] at hwords
    | d x' k' =>
      simp only [splitWords_d, List.cons.injEq, and_true, true_and] at hwords
      rw [decimal_injective hwords.1, decimal_injective hwords.2]

theorem Writes.eq {s : Sys} {p : Nat} {ls ls' : List Line} (h : Writes s p ls)
    (h' : Writes s p ls') : ls = ls' := by
  have htext := congrArg (fun t => fileLines t []) (Except.ok.inj (h.symm.trans h'))
  simp only [fileLines_text] at htext
  exact List.map_injective_iff.mpr lineText_injective htext

/-- Whenever the processes are stopped, their files are in localized causal order. What stands
before `b k` in the file of a process, of its own or of those it depends on, comes before its
message `k`; over any chain of files, that stands before `k` in every file that has `k`. -/
theorem outputs_causal (cfg : Config) (s : Sys) (hr : (stack cfg).Reachable s) :
    (∃ files : Nat → List Line, ∀ p, Writes s p (files p)) ∧
    ∀ files : Nat → List Line, (∀ p, Writes s p (files p)) →
      ∀ m' m, Relation.TransGen (FilePast cfg files) m' m → ∀ q before after,
        files q = before ++ .d m.1 m.2 :: after → .d m'.1 m'.2 ∈ before := by
  have hinv := stackInv_reachable hr
  obtain ⟨groups, hg⟩ := exists_groups cfg
  choose es hes ht using exists_timely hg hinv.sound
  have hwrites : ∀ p, Writes s p ((es p).flatMap Entry.lines) := by
    intro p
    rw [Writes, (hes p).processLog hg (hinv.proc p)]
    exact stop_text (hes p).fits
  refine ⟨⟨_, hwrites⟩, fun files hf m' m hpast q before after hq => ?_⟩
  have hfiles : files = fun p => (es p).flatMap Entry.lines :=
    funext fun p => (hf p).eq (hwrites p)
  rw [hfiles] at hpast hq
  exact FilePast.before_all hg hinv.sound ht hpast hq

theorem outputs_causal_trio :
    (stop (((stack trio).after trioDelivered).proc 3).processLog).toOption =
      some ['d', ' ', '1', ' ', '1', '\n', 'd', ' ', '2', ' ', '1', '\n'] ∧
    ∃ files : Nat → List Line, (∀ p, Writes ((stack trio).after trioDelivered) p (files p)) ∧
      ∀ m' m, Relation.TransGen (FilePast trio files) m' m → ∀ q before after,
        files q = before ++ .d m.1 m.2 :: after → .d m'.1 m'.2 ∈ before := by
  obtain ⟨⟨files, hf⟩, hcausal⟩ :=
    outputs_causal trio _ ((stack trio).reachable_after trioDelivered)
  exact ⟨by decide, files, hf, hcausal files hf⟩

end DecentralizedBroadcast
