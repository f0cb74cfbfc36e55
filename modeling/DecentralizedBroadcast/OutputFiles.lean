import DecentralizedBroadcast.ComingToRest
import DecentralizedBroadcast.OutputValid

/-! The output files of the processes beside each other: what a process would have written when it
was stopped earlier, what its file says of the others, and how alike the files are at rest. -/
set_option autoImplicit false

namespace DecentralizedBroadcast
open History ClockedDelivery

/-- The output of process `p`, if it is stopped in this state. -/
def Writes (s : Sys) (p : Nat) (ls : List Line) : Prop :=
  stop (s.proc p).processLog = .ok (ls.flatMap Line.text)

theorem foldl_addMessageLog_prefix (log es : List Str) :
    log <+: es.foldl addMessageLog log := by
  induction es generalizing log with
  | nil => exact List.prefix_rfl
  | cons e es ih =>
    refine List.IsPrefix.trans ?_ (ih (addMessageLog log e))
    unfold addMessageLog
    split
    · exact List.prefix_rfl
    · exact List.prefix_append _ _

section Runs
variable {cfg : Config} {s s' : Sys}

theorem processLog_prefix (hr : (stack cfg).Reachable s)
    (hs : (stack cfg).Steps (fun _ _ => True) s s') (p : Nat) :
    (s.proc p).processLog <+: (s'.proc p).processLog := by
  obtain ⟨es, htrace⟩ := steps_trace hs
  have hr' : (stack cfg).Reachable s' := Relation.ReflTransGen.trans hr hs
  rw [((stackInv_reachable hr).proc p).log, ((stackInv_reachable hr').proc p).log, htrace,
    logEntries_append, List.foldl_append]
  exact foldl_addMessageLog_prefix _ _

theorem count_le_length {tr : List Event} (h : Sound (EventOk cfg) tr) (p x : Nat) :
    count keyOrigin (said .lcbDeliver p tr) x ≤ (said .broadcast x tr).length := by
  have hsub : deliveriesFrom keyOrigin (said .lcbDeliver p tr) x ⊆
      (said .broadcast x tr).map (messageKey x) := by
    intro k hk
    obtain ⟨hin, ho⟩ := mem_deliveriesFrom.mp hk
    obtain ⟨y, text, ht, rfl⟩ := lcbDeliver_known h hin
    rw [keyOrigin_messageKey (broadcast_fits h ht).2.2, Int.ofNat_inj] at ho
    subst ho
    exact List.mem_map_of_mem ht
  have hnd : (deliveriesFrom keyOrigin (said .lcbDeliver p tr) x).Nodup :=
    (orderly h p).nodup.filter _
  have hle := (List.subperm_of_subset hnd hsub).length_le
  rwa [List.length_map] at hle

theorem exists_output {groups : Nat → List (List Nat)} (hg : GroupsOf cfg groups)
    (hr : (stack cfg).Reachable s) (p : Nat) : ∃ es, Logged groups s.trace p es ∧
      (s.proc p).processLog = es.map Entry.text ∧ Writes s p (es.flatMap Entry.lines) := by
  have h := stackInv_reachable hr
  obtain ⟨es, hes⟩ := exists_logged hg h.sound p
  have hlog := hes.processLog hg (h.proc p)
  refine ⟨es, hes, hlog, ?_⟩
  rw [Writes, hlog]
  exact stop_text hes.fits

theorem Logged.lines_b {groups : Nat → List (List Nat)} {tr : List Event} {p : Nat}
    {es : List Entry} (h : Logged groups tr p es) : (es.flatMap Entry.lines).filterMap Line.b? =
      ((groups p).take (said .broadcast p tr).length).flatten := by
  rw [DecentralizedBroadcast.lines_b, h.sent]

theorem Logged.lines_d {groups : Nat → List (List Nat)} {tr : List Event} {p : Nat}
    {es : List Entry} (h : Logged groups tr p es) (x : Nat) :
    (es.flatMap Entry.lines).filterMap (Line.d? x) =
      ((groups x).take (count keyOrigin (said .lcbDeliver p tr) x)).flatten := by
  rw [DecentralizedBroadcast.lines_d, h.delivered]

theorem flatten_take_mono {gs : List (List Nat)} {i j : Nat} (h : i ≤ j) :
    (gs.take i).flatten <+: (gs.take j).flatten := by
  obtain ⟨rest, hrest⟩ := List.take_prefix_take_left (l := gs) h
  exact ⟨rest.flatten, by rw [← hrest, List.flatten_append]⟩

/-- Stopped at any two moments of a run, a process writes the same at first; and what it has
delivered of another, this one has broadcast, in that order, and will write when it is stopped. -/
theorem outputs_grow (cfg : Config) (s s' : Sys) (hr : (stack cfg).Reachable s)
    (hs : (stack cfg).Steps (fun _ _ => True) s s') (p x : Nat) :
    ∃ ls more lx, Writes s p ls ∧ Writes s' p (ls ++ more) ∧ Writes s' x lx ∧
      (ls ++ more).filterMap (Line.d? x) <+: lx.filterMap Line.b? := by
  have hr' : (stack cfg).Reachable s' := Relation.ReflTransGen.trans hr hs
  obtain ⟨groups, hg⟩ := exists_groups cfg
  obtain ⟨es', hes', hlog', hwrites'⟩ := exists_output hg hr' p
  obtain ⟨ex, hex, -, hwritesx⟩ := exists_output hg hr' x
  have hpre := processLog_prefix hr hs p
  rw [hlog'] at hpre
  obtain ⟨es, ⟨rest, rfl⟩, hlog⟩ := List.prefix_map_iff.mp hpre
  have hwrites : Writes s p (es.flatMap Entry.lines) := by
    rw [Writes, hlog]
    exact stop_text fun e he => hes'.fits e (List.mem_append_left _ he)
  refine ⟨es.flatMap Entry.lines, rest.flatMap Entry.lines, _, hwrites, ?_, hwritesx, ?_⟩
  · rwa [List.flatMap_append] at hwrites'
  · rw [← List.flatMap_append, hes'.lines_d, hex.lines_b]
    exact flatten_take_mono (count_le_length (stackInv_reachable hr').sound p x)

theorem outputs_grow_trio :
    (stop (((stack trio).after trioDelivered).proc 2).processLog).toOption =
      some ['d', ' ', '1', ' ', '1', '\n', 'b', ' ', '1', '\n'] ∧
    ∃ ls more lx, Writes (stack trio).init 2 ls ∧
      Writes ((stack trio).after trioDelivered) 2 (ls ++ more) ∧
      Writes ((stack trio).after trioDelivered) 1 lx ∧
      (ls ++ more).filterMap (Line.d? 1) <+: lx.filterMap Line.b? :=
  ⟨by decide, outputs_grow trio _ _ .refl ((stack trio).reachable_after trioDelivered) 2 1⟩

/-- What the files of two live processes tell at rest. -/
theorem AtRest.outputs (hrest : AtRest cfg s) (hr : (stack cfg).Reachable s)
    (hmany : cfg.N / 2 + 2 ≤ (live cfg.N s).card) {p q : Nat} (hp : p ∈ live cfg.N s)
    (hq : q ∈ live cfg.N s) : ∃ lp lq, Writes s p lp ∧ Writes s q lq ∧
      (∀ x, lp.filterMap (Line.d? x) = lq.filterMap (Line.d? x)) ∧
      lp.filterMap (Line.d? q) = lq.filterMap Line.b? ∧
      ((s.proc q).unsent = [] → lp.filterMap (Line.d? q) = List.range' 1 (cfg.m q)) := by
  have h := stackInv_reachable hr
  obtain ⟨groups, hg⟩ := exists_groups cfg
  obtain ⟨es, hes, -, hwrites⟩ := exists_output hg hr p
  obtain ⟨es', hes', -, hwrites'⟩ := exists_output hg hr q
  have hcount : ∀ x : Nat, count keyOrigin (said .lcbDeliver p s.trace) x =
      count keyOrigin (said .lcbDeliver q s.trace) x := by
    intro x
    have hvc := congrFun (hrest.vc_eq hr hmany hp hq) x
    rw [(h.proc p).vc, (h.proc q).vc, vcOf, vcOf] at hvc
    exact Int.ofNat_inj.mp hvc
  have hown : count keyOrigin (said .lcbDeliver p s.trace) q =
      (said .broadcast q s.trace).length := by
    have hvc := hrest.vc_eq_lsn hr hmany hq hp
    rw [(h.proc p).vc, (h.proc q).lsn, vcOf] at hvc
    exact Int.ofNat_inj.mp hvc
  refine ⟨_, _, hwrites, hwrites', fun x => ?_, ?_, fun hsent => ?_⟩
  · rw [hes.lines_d, hes'.lines_d, hcount]
  · rw [hes.lines_d, hes'.lines_b, hown]
  · obtain ⟨hbatches, hflat, -⟩ := hg q
    rw [(h.proc q).unsent, hbatches, List.drop_eq_nil_iff, List.length_map] at hsent
    rw [hes.lines_d, hown, List.take_of_length_le hsent, hflat]

/-- At rest with one live process more than a majority the files of the live processes tell the
same of every process, in the same order; of a live one, all that it broadcast, and when `main`
is through with its messages there, all of these. -/
theorem outputs_agree (cfg : Config) (s : Sys) (hr : (stack cfg).Reachable s)
    (hrest : AtRest cfg s) (hmany : cfg.N / 2 + 2 ≤ (live cfg.N s).card) {p q : Nat}
    (hp : p ∈ live cfg.N s) (hq : q ∈ live cfg.N s) :
    ∃ lp lq, Writes s p lp ∧ Writes s q lq ∧
      (∀ x, lp.filterMap (Line.d? x) = lq.filterMap (Line.d? x)) ∧
      lp.filterMap (Line.d? q) = lq.filterMap Line.b? ∧
      ((s.proc q).unsent = [] → lp.filterMap (Line.d? q) = List.range' 1 (cfg.m q)) :=
  hrest.outputs hr hmany hp hq

theorem outputs_agree_trio : ∃ lp lq, Writes ((stack trio).after trioAtRest) 3 lp ∧
    Writes ((stack trio).after trioAtRest) 1 lq ∧
    (∀ x, lp.filterMap (Line.d? x) = lq.filterMap (Line.d? x)) ∧
    lp.filterMap (Line.d? 1) = lq.filterMap Line.b? ∧ lp.filterMap (Line.d? 1) = [1] := by
  obtain ⟨lp, lq, hp, hq, hsame, hown, hall⟩ := outputs_agree trio _
    ((stack trio).reachable_after trioAtRest) trioAtRest_rest (by rw [trioAtRest_live]; decide)
    (p := 3) (q := 1) (by rw [trioAtRest_live]; decide) (by rw [trioAtRest_live]; decide)
  exact ⟨lp, lq, hp, hq, hsame, hown, hall (by decide)⟩

end Runs

end DecentralizedBroadcast
