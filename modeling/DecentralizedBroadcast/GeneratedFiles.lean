import DecentralizedBroadcast.ConfigRead
import DecentralizedBroadcast.HostIds
import DecentralizedBroadcast.NoFault
import DecentralizedBroadcast.OutputText

/-! The hosts and config files that the tools write, and the command lines they start the processes
with: what each process makes of its own. -/
set_option autoImplicit false

namespace DecentralizedBroadcast

def processesBaseIp : Nat := 11000

def localhost : Str := ['l', 'o', 'c', 'a', 'l', 'h', 'o', 's', 't']

/-- `Validation`: how many processes and messages, and what `random.shuffle` makes of a list, for
each process anew. -/
structure Validation where
  processes : Nat
  messages : Nat
  shuffle : Nat → List Nat → List Nat
  perm : ∀ i l, (shuffle i l).Perm l

namespace Validation

def hostLine (i : Nat) : Str :=
  decimal i ++ (' ' :: (localhost ++ (' ' :: decimal (processesBaseIp + i))))

/-- Each of the three generators writes these hosts. -/
def hosts (v : Validation) : Str :=
  ((List.range' 1 v.processes).map hostLine).flatMap (· ++ ['\n'])

def generatePerfectLinksConfig (v : Validation) : Str × Str :=
  (v.hosts, decimal v.messages ++ [' ', '1', '\n'])

def generateFifoConfig (v : Validation) : Str × Str := (v.hosts, decimal v.messages ++ ['\n'])

/-- The half of the other processes that affects process `i`, or all if that is none. -/
def others (v : Validation) (i : Nat) : List Nat :=
  let others := v.shuffle i ((List.range' 1 v.processes).erase i)
  if 0 < others.length / 2 then others.take (others.length / 2) else others

def lcausalLine (v : Validation) (i : Nat) : Str :=
  decimal i ++ (' ' :: [' '].intercalate ((v.others i).map decimal))

def generateLcausalConfig (v : Validation) : Str × Str :=
  (v.hosts, (decimal v.messages :: (List.range' 1 v.processes).map v.lcausalLine).flatMap
    (· ++ ['\n']))

end Validation

def procOutput (outputDir : Str) (pid : Nat) : Str :=
  outputDir ++ ['/', 'p', 'r', 'o', 'c'] ++ zeroPad 2 (decimal pid) ++
    ['.', 'o', 'u', 't', 'p', 'u', 't']

/-- The command line of `startProcesses` for a binary in C++. -/
def startCommand (bin hostsPath outputDir configPath : Str) (pid : Nat) : List Str :=
  [bin, ['-', '-', 'i', 'd'], decimal pid, ['-', '-', 'h', 'o', 's', 't', 's'], hostsPath,
    ['-', '-', 'o', 'u', 't', 'p', 'u', 't'], procOutput outputDir pid, configPath]

theorem dropWhile_decimal (n : Nat) (rest : Str) :
    (decimal n ++ rest).dropWhile isspace = decimal n ++ rest := by
  obtain ⟨c, s, hs⟩ := List.exists_cons_of_ne_nil (decimal_ne_nil n)
  have hc := isspace_of_isDigit (decimal_digits (n := n) (by rw [hs]; simp) : c.isDigit = true)
  rw [hs, List.cons_append, List.dropWhile_cons_of_neg (by simp [hc])]

theorem splitSign_decimal (n : Nat) (rest : Str) :
    splitSign (decimal n ++ rest) = (false, decimal n ++ rest) := by
  obtain ⟨c, s, hs⟩ := List.exists_cons_of_ne_nil (decimal_ne_nil n)
  have hc : c.isDigit = true := decimal_digits (n := n) (by rw [hs]; simp)
  rw [hs, List.cons_append, splitSign_digit hc]

theorem readUnsigned_decimal (max n : Nat) {rest : Str}
    (hrest : ∀ c ∈ rest.head?, c.isDigit = false) :
    readUnsigned max (decimal n ++ rest) = if n ≤ max then some (n, rest) else none := by
  have hall : ∀ c ∈ decimal n, c.isDigit = true := fun _ => decimal_digits
  have htake : (decimal n ++ rest).takeWhile Char.isDigit = decimal n := by
    rw [List.takeWhile_append_of_pos hall]
    cases rest with
    | nil => simp
    | cons c rest => simp [hrest c (by simp)]
  have hdrop : (decimal n ++ rest).dropWhile Char.isDigit = rest := by
    rw [List.dropWhile_append_of_pos hall]
    cases rest with
    | nil => rfl
    | cons c rest => exact List.dropWhile_cons_of_neg (by simp [hrest c (by simp)])
  have hvalue : Nat.ofDigitChars 10 (decimal n) 0 = n := Nat.ofDigitChars_ten_toDigits
  rw [readUnsigned, dropWhile_decimal, splitSign_decimal]
  simp only [htake, hdrop, hvalue, decimal_ne_nil, false_or, Bool.false_eq_true, if_false]
  by_cases hn : n ≤ max
  · rw [if_neg (by omega), if_pos hn]
  · rw [if_pos (by omega), if_neg hn]

theorem readUnsigned_blank (max : Nat) (s : Str) :
    readUnsigned max (' ' :: s) = readUnsigned max s := rfl

theorem readHost_hostLine (resolve : Str → Nat) (i : Nat) :
    Parser.readHost resolve (Validation.hostLine i) =
      if processesBaseIp + i ≤ ushortMax then
        some ⟨i, resolve localhost, Parser.htons (processesBaseIp + i)⟩
      else none := by
  have hword : ∀ s : Str, readWord (' ' :: (localhost ++ (' ' :: s))) =
      some (localhost, ' ' :: s) := fun s => rfl
  have hport := @readUnsigned_decimal ushortMax (processesBaseIp + i) [] (by simp)
  rw [List.append_nil] at hport
  rw [Parser.readHost, Validation.hostLine, readUnsigned_decimal _ _ (by simp)]
  by_cases hi : i ≤ ulongMax
  · simp only [if_pos hi, Option.bind_eq_bind, Option.bind_some, hword, readUnsigned_blank, hport]
    split <;> rfl
  · have hport : ¬ processesBaseIp + i ≤ ushortMax := by
      unfold ulongMax at hi
      unfold ushortMax
      omega
    rw [if_neg hi, if_neg hport]
    rfl

theorem trim_hostLine (i : Nat) : Parser.trim (Validation.hostLine i) ≠ [] := by
  rw [Ne, trim_eq_nil, Validation.hostLine, dropWhile_decimal]
  simp [decimal_ne_nil]

theorem hostsLoop_hostLines (resolve : Str → Nat) (path : Str) (lineNum : Nat) (ids : List Nat) :
    (∀ i ∈ ids, processesBaseIp + i ≤ ushortMax) ∧
        Parser.hostsLoop resolve path lineNum (ids.map Validation.hostLine) = .ok (ids.map fun i =>
          ⟨i, resolve localhost, Parser.htons (processesBaseIp + i)⟩) ∨
      (∃ i ∈ ids, ushortMax < processesBaseIp + i) ∧
        ∃ e, Parser.hostsLoop resolve path lineNum (ids.map Validation.hostLine) = .error e := by
  induction ids generalizing lineNum with
  | nil => exact .inl ⟨by simp, rfl⟩
  | cons i ids ih =>
    rw [List.map_cons, Parser.hostsLoop, if_neg (trim_hostLine i), readHost_hostLine]
    by_cases hport : processesBaseIp + i ≤ ushortMax
    · rw [if_pos hport]
      rcases ih (lineNum + 1) with ⟨hall, hok⟩ | ⟨⟨j, hj, hbig⟩, e, he⟩
      · exact .inl ⟨by simpa [hport] using hall, by rw [hok]; rfl⟩
      · exact .inr ⟨⟨j, by simp [hj], hbig⟩, e, by rw [he]⟩
    · rw [if_neg hport]
      exact .inr ⟨⟨i, by simp, by omega⟩, _, rfl⟩

theorem parse_startCommand (bin hostsPath outputDir configPath : Str) {pid : Nat}
    (hpid : pid < 2 ^ 64) :
    Parser.parse (startCommand bin hostsPath outputDir configPath pid) true =
      .ok ⟨pid, hostsPath, procOutput outputDir pid, configPath⟩ := by
  have hnumber : Parser.isPositiveNumber (decimal pid) = true := by
    have hall : (decimal pid).all Char.isDigit = true :=
      List.all_eq_true.mpr fun _ => decimal_digits
    simp [Parser.isPositiveNumber, decimal_ne_nil, hall]
  have hstoul : stoul (decimal pid) = .ok pid :=
    stoul_digits (decimal_ne_nil pid) (fun _ => decimal_digits) (by
      rw [decimal, Nat.ofDigitChars_ten_toDigits]) hpid
  have hid : Parser.parseID (startCommand bin hostsPath outputDir configPath pid) = some pid := by
    change (if Parser.isPositiveNumber (decimal pid) then (stoul (decimal pid)).toOption
      else none) = some pid
    rw [if_pos hnumber, hstoul]
    rfl
  have hparsed : Parser.parseInternal (startCommand bin hostsPath outputDir configPath pid) true =
      some ⟨pid, hostsPath, procOutput outputDir pid, configPath⟩ := by
    rw [Parser.parseInternal, hid]
    rfl
  rw [Parser.parse, hparsed]

theorem getlines_hosts (v : Validation) : getlines '\n' v.hosts =
    (List.range' 1 v.processes).map Validation.hostLine := by
  refine getlines_flatMap fun line hline => ?_
  obtain ⟨i, -, rfl⟩ := List.mem_map.mp hline
  have hdigits : ∀ n, '\n' ∉ decimal n := fun n => notMem_decimal (by decide)
  simp [Validation.hostLine, localhost, hdigits]

theorem sort_eq (sorting : Parser.HostSort) {hosts : List Host}
    (hs : (hosts.map Host.id).Pairwise (· < ·)) : sorting.sort hosts = hosts := by
  have hperm := sorting.perm hosts
  have hsorted := List.pairwise_map.mp (sorting.sorted hosts)
  have hhosts := List.pairwise_map.mp hs
  refine hperm.eq_of_pairwise (fun a b ha hb hab hba => ?_) hsorted (hhosts.imp fun h => h.le)
  have hinj : ∀ a ∈ hosts, ∀ b ∈ hosts, a.id = b.id → a = b :=
    fun a ha b hb => List.inj_on_of_nodup_map (hs.imp fun h => h.ne) ha hb
  exact hinj a (hperm.subset ha) b hb (Nat.le_antisymm hab hba)

def localHosts (resolve : Str → Nat) (n : Nat) : List Host :=
  (List.range' 1 n).map fun i =>
    ⟨i, resolve localhost, Parser.htons (processesBaseIp + i)⟩

theorem localHosts_ids (resolve : Str → Nat) (n : Nat) :
    (localHosts resolve n).map Host.id = List.range' 1 n := by
  rw [localHosts, List.map_map]
  exact List.map_id'' (fun _ => rfl) _

theorem range'_min_max {n : Nat} (hn : 1 ≤ n) :
    (List.range' 1 n).min? = some 1 ∧ (List.range' 1 n).max? = some n := by
  constructor
  · refine List.min?_eq_some_iff.mpr ⟨List.mem_range'_1.mpr (by omega), fun i hi => ?_⟩
    exact (List.mem_range'_1.mp hi).1
  · refine List.max?_eq_some_iff.mpr ⟨List.mem_range'_1.mpr (by omega), fun i hi => ?_⟩
    have := List.mem_range'_1.mp hi
    omega

theorem parser_hosts_local (sorting : Parser.HostSort) (resolve : Str → Nat)
    (files : Str → Option Str) (v : Validation) (parsed : Parsed)
    (hf : files parsed.hostsPath = some v.hosts) :
    (2 ≤ v.processes ∧ v.processes ≤ 54535 ∧
        Parser.hosts sorting resolve files parsed = .ok (localHosts resolve v.processes)) ∨
      ¬ (2 ≤ v.processes ∧ v.processes ≤ 54535) ∧
        ∃ e, Parser.hosts sorting resolve files parsed = .error e := by
  have hlen : (localHosts resolve v.processes).length = v.processes := by simp [localHosts]
  rw [Parser.hosts, hf]
  simp only [getlines_hosts]
  rcases hostsLoop_hostLines resolve parsed.hostsPath 0 (List.range' 1 v.processes) with
    ⟨hall, hok⟩ | ⟨⟨i, hi, hbig⟩, e, he⟩
  · have hread : Parser.hostsLoop resolve parsed.hostsPath 0
        ((List.range' 1 v.processes).map Validation.hostLine) =
          .ok (localHosts resolve v.processes) := hok
    simp only [hread, localHosts_ids, hlen]
    by_cases hfew : v.processes < 2
    · rw [if_pos hfew]
      exact .inr ⟨by omega, _, rfl⟩
    · obtain ⟨hmin, hmax⟩ := @range'_min_max v.processes (by omega)
      have hport := hall v.processes (List.mem_range'_1.mpr (by omega))
      have hsorted : ((localHosts resolve v.processes).map Host.id).Pairwise (· < ·) := by
        rw [localHosts_ids]
        exact List.pairwise_lt_range' 1
      refine .inl ⟨by omega, by unfold processesBaseIp ushortMax at hport; omega, ?_⟩
      rw [if_neg hfew, hmin, hmax, if_neg (by simp), sort_eq sorting hsorted]
  · rw [he]
    refine .inr ⟨fun h => ?_, e, rfl⟩
    have := List.mem_range'_1.mp hi
    unfold processesBaseIp ushortMax at hbig
    omega

/-- A process that the tools start finds its place among all processes, and so does every other,
exactly if there are two at least and the last port is one. -/
theorem generated_hosts_iff (v : Validation) (sorting : Parser.HostSort) (resolve : Str → Nat)
    (files : Str → Option Str) (bin hostsPath outputDir configPath : Str)
    (hf : files hostsPath = some v.hosts) (pid : Nat) (hpid : 1 ≤ pid ∧ pid ≤ v.processes) :
    (∃ parsed hosts, mainArguments sorting resolve files
        (startCommand bin hostsPath outputDir configPath pid) = .ok (parsed, hosts) ∧
      parsed = ⟨pid, hostsPath, procOutput outputDir pid, configPath⟩ ∧
      hosts = localHosts resolve v.processes ∧ HostsRight hosts pid) ↔
    2 ≤ v.processes ∧ v.processes ≤ 54535 := by
  have hlocal := parser_hosts_local sorting resolve files v
    ⟨pid, hostsPath, procOutput outputDir pid, configPath⟩ hf
  constructor
  · rintro ⟨parsed, hosts, hmain, rfl, -, -⟩
    rcases hlocal with ⟨htwo, hsmall, -⟩ | ⟨-, e, he⟩
    · exact ⟨htwo, hsmall⟩
    · have hok := (mainArguments_ok.mp hmain).2
      rw [he] at hok
      cases hok
  · intro hn
    have hlen : (localHosts resolve v.processes).length = v.processes := by simp [localHosts]
    rcases hlocal with ⟨-, -, hok⟩ | ⟨hnot, -⟩
    · refine ⟨_, _, ?_, rfl, rfl, (hostsRight_of_ids ?_).mpr ?_⟩
      · exact mainArguments_ok.mpr ⟨parse_startCommand _ _ _ _ (by omega), hok⟩
      · rw [localHosts_ids, hlen]
      · rw [hlen]
        omega
    · exact absurd hn hnot

/-- Three processes that broadcast two messages each; shuffling turns a list around. -/
def threeLocal : Validation where
  processes := 3
  messages := 2
  shuffle _ := List.reverse
  perm _ l := l.reverse_perm

theorem generated_hosts_iff_three : ∃ parsed hosts,
    mainArguments insertionById (fun _ => 0) (fun _ => some threeLocal.hosts)
      (startCommand ['d'] ['h'] ['o'] ['c'] 2) = .ok (parsed, hosts) ∧
    parsed = ⟨2, ['h'], procOutput ['o'] 2, ['c']⟩ ∧ hosts = localHosts (fun _ => 0) 3 ∧
    HostsRight hosts 2 :=
  (generated_hosts_iff threeLocal insertionById (fun _ => 0) (fun _ => some threeLocal.hosts) ['d']
    ['h'] ['o'] ['c'] rfl 2 (by decide)).mpr (by decide)

theorem processes_nodup (n : Nat) : (List.range' 1 n).Nodup := List.nodup_range'

def Gap.one : Gap := ⟨[' '], by simp [isspace], by simp⟩

theorem Numeral.value_of (n : Nat) : (Numeral.of n).value = n := Nat.ofDigitChars_ten_toDigits

namespace Validation

def numberLine (v : Validation) (i : Nat) : NumberLine where
  leading := Gap.none
  first := .of i
  rest := (v.others i).map fun j => (Gap.one, .of j)
  separated := by simp [Gap.one]
  trailing := if v.others i = [] then Gap.one else Gap.none

def configText (v : Validation) : ConfigText where
  leading := Gap.none
  m := .of v.messages
  trailing := Gap.none
  lines := (List.range' 1 v.processes).map v.numberLine
  ids := by
    have hvalues : ((List.range' 1 v.processes).map v.numberLine).map (·.first.value) =
        List.range' 1 v.processes := by
      rw [List.map_map]
      exact List.map_id'' (fun i => Numeral.value_of i) _
    rw [hvalues, List.length_map, List.length_range']

theorem restText_joined (j : Nat) (ids : List Nat) :
    restText [] ((j :: ids).map fun j => (Gap.one, Numeral.of j)) =
      ' ' :: [' '].intercalate ((j :: ids).map decimal) := by
  induction ids generalizing j with
  | nil => simp [restText, Gap.one, Numeral.of, List.intercalate]
  | cons k ids ih =>
    rw [List.map_cons, restText, ih k]
    simp [Gap.one, Numeral.of, List.intercalate]

theorem restText_others (ids : List Nat) :
    restText (if ids = [] then Gap.one else Gap.none).text
      (ids.map fun j => (Gap.one, Numeral.of j)) = ' ' :: [' '].intercalate (ids.map decimal) := by
  cases ids with
  | nil => rfl
  | cons j ids => exact restText_joined j ids

theorem numberLine_text (v : Validation) (i : Nat) : (v.numberLine i).text = v.lcausalLine i := by
  rw [lcausalLine, ← restText_others]
  rfl

theorem configText_text (v : Validation) : v.configText.text = v.generateLcausalConfig.2 := by
  rw [ConfigText.text, generateLcausalConfig]
  have hlines : v.configText.lines.map NumberLine.text =
      (List.range' 1 v.processes).map v.lcausalLine := by
    rw [configText, List.map_map]
    exact List.map_congr_left fun i _ => v.numberLine_text i
  have hfirst : v.configText.firstLine = decimal v.messages := by
    simp [configText, ConfigText.firstLine, Gap.none, Numeral.of]
  rw [hlines, hfirst]

theorem listed (v : Validation) {i : Nat} (hi : i ∈ List.range' 1 v.processes) :
    v.configText.listed i = (v.others i).map fun j : Nat => (j : Int) := by
  have hline : v.configText.lines.filter (·.first.value = i) = [v.numberLine i] := by
    rw [configText, List.filter_map]
    have hsame : (fun l : NumberLine => decide (l.first.value = i)) ∘ v.numberLine =
        fun j => decide (j = i) := by
      funext j
      simp [numberLine, Numeral.value_of]
    rw [hsame, List.filter_eq, List.count_eq_one_of_mem (processes_nodup _) hi]
    rfl
  rw [ConfigText.listed, hline, List.flatMap_cons, List.flatMap_nil, List.append_nil,
    NumberLine.listed, numberLine, List.map_map]
  refine List.map_congr_left fun j _ => ?_
  change ((Numeral.of j).value : Int) = j
  rw [Numeral.value_of]

/-- Some of the other processes, none twice: half of them, or the other one of two. -/
theorem others_spec (v : Validation) {i : Nat} (hi : i ∈ List.range' 1 v.processes) :
    (v.others i).Nodup ∧ (∀ j ∈ v.others i, (1 ≤ j ∧ j ≤ v.processes) ∧ j ≠ i) ∧
      (2 ≤ v.processes → (v.others i).length = max 1 ((v.processes - 1) / 2)) := by
  have hperm := v.perm i ((List.range' 1 v.processes).erase i)
  have hnd : ((List.range' 1 v.processes).erase i).Nodup := (processes_nodup _).erase i
  have hsub : (v.others i).Sublist (v.shuffle i ((List.range' 1 v.processes).erase i)) := by
    unfold others
    dsimp only
    split
    · exact List.take_sublist _ _
    · exact List.Sublist.refl _
  refine ⟨(hperm.nodup_iff.mpr hnd).sublist hsub, fun j hj => ?_, fun htwo => ?_⟩
  · have hin := ((processes_nodup _).mem_erase_iff).mp (hperm.subset (hsub.subset hj))
    have := List.mem_range'_1.mp hin.2
    exact ⟨by omega, hin.1⟩
  · have hlen : (v.shuffle i ((List.range' 1 v.processes).erase i)).length = v.processes - 1 := by
      rw [hperm.length_eq, List.length_erase_of_mem hi, List.length_range']
    unfold others
    dsimp only
    split
    · rw [List.length_take]
      omega
    · omega

theorem readable (v : Validation) (hn : v.processes ≤ 2147483647) {i : Nat}
    (hi : i ∈ List.range' 1 v.processes) : (v.numberLine i).Readable := by
  have hfound : (v.numberLine i).Found := by
    refine ⟨rfl, ?_, fun c hc => ?_⟩
    · change decimal i = decimal (Numeral.of i).value
      rw [Numeral.value_of]
    · change c ∈ (restText (if v.others i = [] then Gap.one else Gap.none).text
        ((v.others i).map fun j => (Gap.one, Numeral.of j))).head? at hc
      rw [restText_others] at hc
      exact (Option.some.inj hc).symm
  unfold NumberLine.Readable
  split
  · rename_i hnone
    have hothers : v.others i = [] := List.map_eq_nil_iff.mp hnone
    intro _
    change (if v.others i = [] then Gap.one else Gap.none).text.length ≤ 1
    rw [if_pos hothers]
    exact Nat.le_refl 1
  · rename_i hsome
    have hothers : v.others i ≠ [] := fun h => hsome (List.map_eq_nil_iff.mpr h)
    refine ⟨hfound, fun x hx => ?_, ?_⟩
    · obtain ⟨j, hj, rfl⟩ := List.mem_map.mp hx
      have := ((v.others_spec hi).2.1 j hj).1
      refine ⟨rfl, ?_⟩
      change (Numeral.of j).value ≤ 2147483647
      rw [Numeral.value_of]
      omega
    · change ' ' ∉ (if v.others i = [] then Gap.one else Gap.none).text.dropLast
      rw [if_neg hothers]
      simp [Gap.none]

end Validation

/-- What `main` of process `i` makes of a config file: how often it broadcasts, and on whom its
messages depend. -/
def ReadsConfig (content : Str) (i m : Nat) (localizedIds : List Int) : Prop :=
  ∃ text, readConfig i content = .ok (text, localizedIds) ∧ stoi text = .ok (m : Int)

theorem readsConfig_first {m : Nat} (hm : m ≤ 2147483647) {line : Str}
    (hline : '\n' ∉ decimal m ++ line) (hblank : ∀ c ∈ line.head?, c = ' ') (i : Nat) :
    ReadsConfig (decimal m ++ line ++ ['\n']) i m [] := by
  have hlines : getlines '\n' (decimal m ++ line ++ ['\n']) = [decimal m ++ line] := by
    rw [getlines_append hline, getlines_nil]
  have hfield : (getlines ' ' (decimal m ++ line)).headD [] = decimal m := by
    rw [getlines_headD, takeWhile_ne_append (notMem_decimal (by decide))]
    cases line with
    | nil => simp
    | cons c line =>
      obtain rfl := hblank c rfl
      simp
  refine ⟨decimal m, ?_, ?_⟩
  · rw [readConfig, hlines, List.headD_cons, hfield]
    rfl
  · have hstoi := (@stoi_field [] [] (by simp [Blank]) (by simp [Blank]) (Numeral.of m) m).mpr
    rw [Numeral.value_of, List.nil_append, List.append_nil] at hstoi
    exact hstoi ⟨rfl, hm⟩

theorem readsConfig_lcausal (v : Validation) (hm : v.messages ≤ 2147483647)
    (hn : v.processes ≤ 2147483647) {i : Nat} (hi : i ∈ List.range' 1 v.processes) :
    ReadsConfig v.generateLcausalConfig.2 i v.messages
      ((v.others i).map fun j : Nat => (j : Int)) := by
  have hlines : readIds i (v.configText.lines.map NumberLine.text) [] =
      .ok (v.configText.listed i) := by
    refine (v.configText.readIds_lines i).mpr fun l hl hvalue => ?_
    obtain ⟨j, hj, rfl⟩ := List.mem_map.mp hl
    exact v.readable hn hj
  have hm' := v.configText.stoi_m.mpr ⟨List.not_mem_nil, by
    change (Numeral.of v.messages).value ≤ 2147483647
    rwa [Numeral.value_of]⟩
  rw [← v.configText_text, ← v.listed hi]
  refine ⟨_, ?_, hm'.trans ?_⟩
  · rw [readConfig_text, hlines]
    rfl
  · change Except.ok ((Numeral.of v.messages).value : Int) = _
    rw [Numeral.value_of]

/-- The three kinds of generated config: all processes broadcast as often as the tools were told,
and in the third they depend on half of the others, or on the other one. So the processes run
with a configuration in which they depend on processes only. -/
theorem generated_configs (v : Validation) (hm : v.messages ≤ 2147483647)
    (hn : 2 ≤ v.processes ∧ v.processes ≤ 2147483647) :
    ∃ cfg : Config, cfg.N = v.processes ∧ DependsOnProcesses cfg ∧
      ∀ i ∈ List.range' 1 v.processes, cfg.m i = v.messages ∧
        ReadsConfig v.generateLcausalConfig.2 i v.messages (cfg.localizedIds i) ∧
        ReadsConfig v.generateFifoConfig.2 i v.messages [] ∧
        ReadsConfig v.generatePerfectLinksConfig.2 i v.messages [] ∧
        (i : Int) ∉ cfg.localizedIds i ∧ (cfg.localizedIds i).Nodup ∧
        (cfg.localizedIds i).length = max 1 ((v.processes - 1) / 2) := by
  have hnewline : ∀ n, '\n' ∉ decimal n := fun n => notMem_decimal (by decide)
  refine ⟨⟨v.processes, hn.1, fun _ => v.messages, fun _ => hm,
    fun i => (v.others i).map fun j : Nat => (j : Int)⟩, rfl, fun p hp d hd => ?_,
    fun i hi => ⟨rfl, readsConfig_lcausal v hm hn.2 hi, ?_, ?_, ?_, ?_, ?_⟩⟩
  · obtain ⟨j, hj, rfl⟩ := List.mem_map.mp hd
    have hp' : p ∈ List.range' 1 v.processes :=
      List.mem_range'_1.mpr ⟨hp.1, Nat.lt_one_add_iff.mpr hp.2⟩
    obtain ⟨h1, hle⟩ := ((v.others_spec hp').2.1 j hj).1
    exact ⟨Int.ofNat_le.mpr h1, Int.ofNat_le.mpr hle⟩
  · have hread := @readsConfig_first _ hm [] (by simp [hnewline]) (by simp) i
    rwa [List.append_nil] at hread
  · have hread := @readsConfig_first _ hm [' ', '1'] (by simp [hnewline]) (by simp) i
    rwa [List.append_assoc] at hread
  · intro hin
    obtain ⟨j, hj, hji⟩ := List.mem_map.mp hin
    exact ((v.others_spec hi).2.1 j hj).2 (Int.ofNat.inj hji)
  · exact (v.others_spec hi).1.map Int.ofNat_injective
  · rw [List.length_map]
    exact (v.others_spec hi).2.2 hn.1

theorem generated_configs_three :
    threeLocal.generateLcausalConfig.2 =
      ['2', '\n', '1', ' ', '3', '\n', '2', ' ', '3', '\n', '3', ' ', '2', '\n'] ∧
    ∃ cfg : Config, cfg.N = 3 ∧ DependsOnProcesses cfg ∧
      ∀ i ∈ List.range' 1 3, cfg.m i = 2 ∧
        ReadsConfig threeLocal.generateLcausalConfig.2 i 2 (cfg.localizedIds i) ∧
        ReadsConfig threeLocal.generateFifoConfig.2 i 2 [] ∧
        ReadsConfig threeLocal.generatePerfectLinksConfig.2 i 2 [] ∧
        (i : Int) ∉ cfg.localizedIds i ∧ (cfg.localizedIds i).Nodup ∧
        (cfg.localizedIds i).length = max 1 ((3 - 1) / 2) :=
  ⟨by decide, generated_configs threeLocal (by decide) (by decide)⟩

end DecentralizedBroadcast
