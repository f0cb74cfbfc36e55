import DecentralizedBroadcast.HostsParser

/-! Which accepted hosts files and ids give every process its place. The parser compares the least
and the greatest id with the number of lines, and the id of this process with nothing. -/
set_option autoImplicit false

namespace DecentralizedBroadcast

/-- The id in front of a line; a blank line has none. -/
def writtenId (line : Str) : Option Nat := (readUnsigned ulongMax line).map Prod.fst

def writtenIds (content : Str) : List Nat := (getlines '\n' content).filterMap writtenId

/-- What the routing relies on: entry `i` stands for process `i + 1`, which is this process just
at the one null link. -/
structure HostsRight (hosts : List Host) (myId : Nat) : Prop where
  ids : hosts.map Host.id = List.range' 1 hosts.length
  mine : 1 ≤ myId ∧ myId ≤ hosts.length
  own : ∃ host ∈ hosts, host.id = myId ∧
    thisProcess hosts myId = .ok ⟨host.ip, host.port, (myId : Int)⟩
  null : ∀ i : Nat, (mainLinks hosts myId)[i]? = some none ↔ i + 1 = myId
  link : ∀ (i : Nat) (host : Host), hosts[i]? = some host → i + 1 ≠ myId →
    (mainLinks hosts myId)[i]? = some (some ⟨host.ip, host.port, (i : Int) + 1⟩)

theorem trim_eq_nil {s : Str} : Parser.trim s = [] ↔ s.dropWhile isspace = [] := by
  rw [Parser.trim, Parser.rtrim, Parser.ltrim, List.reverse_eq_nil_iff]
  constructor
  · intro h
    have hall := List.dropWhile_eq_nil_iff.mp h
    by_contra hne
    have hhead := List.head_dropWhile_not isspace hne
    rw [hall _ (List.mem_reverse.mpr (List.head_mem hne))] at hhead
    cases hhead
  · intro h
    rw [h]
    rfl

theorem writtenId_blank {line : Str} (h : Parser.trim line = []) : writtenId line = none := by
  rw [writtenId, readUnsigned, trim_eq_nil.mp h]
  rfl

theorem readHost_id {resolve : Str → Nat} {line : Str} {host : Host}
    (h : Parser.readHost resolve line = some host) : writtenId line = some host.id := by
  simp only [Parser.readHost, Option.bind_eq_bind, Option.bind_eq_some_iff] at h
  obtain ⟨⟨id, s⟩, hid, ⟨ip, s'⟩, -, ⟨port, s''⟩, -, he⟩ := h
  obtain rfl := Option.some.inj he
  rw [writtenId, hid]
  rfl

theorem hostsLoop_ids {resolve : Str → Nat} {path : Str} {lineNum : Nat} {lines : List Str}
    {hosts : List Host} (h : Parser.hostsLoop resolve path lineNum lines = .ok hosts) :
    hosts.map Host.id = lines.filterMap writtenId := by
  induction lines generalizing lineNum hosts with
  | nil => exact Except.ok.inj h ▸ rfl
  | cons line lines ih =>
    rw [Parser.hostsLoop] at h
    split at h
    · rename_i hblank
      rw [List.filterMap_cons_none (writtenId_blank hblank)]
      exact ih h
    · split at h
      · cases h
      · rename_i host hread
        split at h
        · rename_i rest hrest
          obtain rfl := Except.ok.inj h
          rw [List.filterMap_cons_some (readHost_id hread), List.map_cons, ih hrest]
        · cases h

/-- Numbers from 1 to their count are all the numbers up to it exactly if no two are equal. -/
theorem sorted_eq_range'_iff {ids sorted : List Nat} (hperm : sorted.Perm ids)
    (hs : sorted.Pairwise (· ≤ ·)) (hmin : ids.min? = some 1) (hmax : ids.max? = some ids.length) :
    sorted = List.range' 1 sorted.length ↔ ids.Nodup := by
  constructor
  · intro h
    exact hperm.nodup_iff.mp (h ▸ List.nodup_range')
  · intro hnd
    have hsub : ids ⊆ List.range' 1 ids.length := by
      intro x hx
      have h1 := (List.min?_eq_some_iff.mp hmin).2 x hx
      have hn := (List.max?_eq_some_iff.mp hmax).2 x hx
      exact List.mem_range'_1.mpr ⟨h1, by omega⟩
    have hrange : ids.Perm (List.range' 1 ids.length) :=
      (List.subperm_of_subset hnd hsub).perm_of_length_le (by rw [List.length_range'])
    rw [hperm.length_eq]
    refine (hperm.trans hrange).eq_of_pairwise (fun _ _ _ _ => Nat.le_antisymm) hs ?_
    exact List.pairwise_le_range' 1

theorem castInt_eq_iff {n : Nat} : castInt n = (n : Int) ↔ n ≤ 2147483647 := by
  unfold castInt
  constructor
  · intro h
    have hlt : (n : Int).bmod (2 ^ 32) < (((2 ^ 32 : Nat) : Int) + 1) / 2 := Int.bmod_lt (by decide)
    rw [h] at hlt
    omega
  · intro h
    exact Int.bmod_eq_of_le (by omega) (by omega)

theorem thisProcess_eq {hosts : List Host} {myId : Nat} (hid : 1 ≤ myId ∧ myId ≤ hosts.length)
    (hn : hosts.length ≤ 2147483647) {host : Host} (h : hosts[myId - 1]? = some host) :
    thisProcess hosts myId = .ok ⟨host.ip, host.port, (myId : Int)⟩ := by
  have hindex : (myId + ulongMax) % (ulongMax + 1) = myId - 1 := by
    unfold ulongMax
    omega
  rw [thisProcess, hindex, h, castInt_eq_iff.mpr (by omega)]

section InPlace
variable {hosts : List Host} {myId : Nat} (hids : hosts.map Host.id = List.range' 1 hosts.length)
include hids

theorem id_at {i : Nat} {host : Host} (hi : hosts[i]? = some host) : host.id = i + 1 := by
  have hmap : (hosts.map Host.id)[i]? = some host.id := by rw [List.getElem?_map, hi]; rfl
  rw [hids, List.getElem?_range' (List.getElem?_eq_some_iff.mp hi).1] at hmap
  have := Option.some.inj hmap
  omega

theorem mainLinks_null_iff (hmine : 1 ≤ myId ∧ myId ≤ hosts.length) (i : Nat) :
    (mainLinks hosts myId)[i]? = some none ↔ i + 1 = myId := by
  rw [mainLinks, List.getElem?_map, Option.map_eq_some_iff]
  constructor
  · rintro ⟨host, hi, hnull⟩
    have hid := id_at hids hi
    by_contra hne
    rw [if_pos (by omega)] at hnull
    cases hnull
  · intro he
    obtain ⟨host, hi⟩ : ∃ host, hosts[i]? = some host :=
      ⟨_, List.getElem?_eq_getElem (by omega)⟩
    have hid := id_at hids hi
    exact ⟨host, hi, if_neg (by omega)⟩

theorem mainLinks_other {i : Nat} {host : Host} (hi : hosts[i]? = some host)
    (hne : i + 1 ≠ myId) :
    (mainLinks hosts myId)[i]? = some (some ⟨host.ip, host.port, castInt (i + 1)⟩) := by
  have hid := id_at hids hi
  rw [mainLinks, List.getElem?_map, hi, Option.map_some, if_pos (by omega), hid]

/-- The first id that an `int` does not hold is 2147483648; its host goes wrong. -/
theorem HostsRight.length_le (h : HostsRight hosts myId) : hosts.length ≤ 2147483647 := by
  by_contra hbig
  obtain ⟨host, hi⟩ : ∃ host, hosts[2147483647]? = some host :=
    ⟨_, List.getElem?_eq_getElem (by omega)⟩
  have hwrong : castInt 2147483648 ≠ (2147483648 : Nat) :=
    fun he => absurd (castInt_eq_iff.mp he) (by decide)
  by_cases hme : 2147483647 + 1 = myId
  · obtain ⟨own, -, -, hown⟩ := h.own
    rw [← hme, thisProcess] at hown
    split at hown
    · exact hwrong (Endpoint.mk.inj (Except.ok.inj hown)).2.2
    · cases hown
  · have hlink := h.link _ host hi hme
    rw [mainLinks_other hids hi hme] at hlink
    exact hwrong (Endpoint.mk.inj (Option.some.inj (Option.some.inj hlink))).2.2

/-- With the ids in place, all that can go wrong is the id of this process, or that the ids do not
fit an `int`. -/
theorem hostsRight_of_ids :
    HostsRight hosts myId ↔ (1 ≤ myId ∧ myId ≤ hosts.length) ∧ hosts.length ≤ 2147483647 := by
  constructor
  · exact fun h => ⟨h.mine, h.length_le hids⟩
  · rintro ⟨hmine, hn⟩
    refine ⟨hids, hmine, ?_, mainLinks_null_iff hids hmine, fun i host hi hne => ?_⟩
    · obtain ⟨host, hi⟩ : ∃ host, hosts[myId - 1]? = some host :=
        ⟨_, List.getElem?_eq_getElem (by omega)⟩
      have hid := id_at hids hi
      exact ⟨host, List.mem_of_getElem? hi, by omega, thisProcess_eq hmine hn hi⟩
    · have hlt := (List.getElem?_eq_some_iff.mp hi).1
      rw [mainLinks_other hids hi hne, castInt_eq_iff.mpr (by omega)]
      rfl

end InPlace

/-- What the parser checks, and nothing more. -/
theorem hosts_ok {sorting : Parser.HostSort} {resolve : Str → Nat} {files : Str → Option Str}
    {parsed : Parsed} {hosts : List Host} {content : Str}
    (h : Parser.hosts sorting resolve files parsed = .ok hosts)
    (hf : files parsed.hostsPath = some content) :
    (hosts.map Host.id).Perm (writtenIds content) ∧ (hosts.map Host.id).Pairwise (· ≤ ·) ∧
      (writtenIds content).min? = some 1 ∧
      (writtenIds content).max? = some (writtenIds content).length := by
  rw [Parser.hosts, hf] at h
  simp only at h
  split at h
  · cases h
  · rename_i read hread
    have hids : read.map Host.id = writtenIds content := hostsLoop_ids hread
    have hlen : read.length = (writtenIds content).length := by rw [← hids, List.length_map]
    rw [hids, hlen] at h
    split at h
    · cases h
    · split at h
      · cases h
      · rename_i hcompact
        obtain rfl := Except.ok.inj h
        rw [not_or, not_not, not_not] at hcompact
        exact ⟨hids ▸ (sorting.perm read).map Host.id, sorting.sorted read, hcompact⟩

theorem mainArguments_ok {sorting : Parser.HostSort} {resolve : Str → Nat}
    {files : Str → Option Str} {argv : List Str} {parsed : Parsed} {hosts : List Host} :
    mainArguments sorting resolve files argv = .ok (parsed, hosts) ↔
      Parser.parse argv true = .ok parsed ∧
        Parser.hosts sorting resolve files parsed = .ok hosts := by
  unfold mainArguments
  constructor
  · intro h
    split at h
    · cases h
    · rename_i hparse
      split at h
      · cases h
      · rename_i hhosts
        obtain ⟨rfl, rfl⟩ := Prod.mk.inj (Except.ok.inj h)
        exact ⟨hparse, hhosts⟩
  · rintro ⟨hparse, hhosts⟩
    simp only [hparse, hhosts]

/-- The number that the digits behind `--id` spell. -/
def spelledId (argv : List Str) : Nat := Nat.ofDigitChars 10 (argv.getD 2 []) 0

theorem parseID_spelled {argv : List Str} {id : Nat} (h : Parser.parseID argv = some id) :
    id = spelledId argv := by
  simp only [Parser.parseID, Option.bind_eq_bind, Option.bind_eq_some_iff] at h
  obtain ⟨text, htext, h⟩ := h
  have hat : argv[2]? = some text := by
    unfold Parser.argumentOf at htext
    split at htext
    · exact htext
    · cases htext
  split at h
  · rename_i hnumber
    obtain ⟨hne, hdigits⟩ : text ≠ [] ∧ ∀ c ∈ text, c.isDigit = true := by
      simpa [Parser.isPositiveNumber] using hnumber
    have hscan := @scanNumber_digits text [] hne hdigits (by simp)
    rw [List.append_nil] at hscan
    rw [toOption_eq_some] at h
    simp only [stoul, hscan] at h
    split at h
    · have hid := Except.ok.inj h
      rw [spelledId, List.getD_eq_getElem?_getD, hat, Option.getD_some]
      omega
    · cases h
  · cases h

theorem parse_spelled {argv : List Str} {withConfig : Bool} {parsed : Parsed}
    (h : Parser.parse argv withConfig = .ok parsed) : parsed.id = spelledId argv := by
  unfold Parser.parse at h
  split at h
  · rename_i hinternal
    obtain rfl := Except.ok.inj h
    simp only [Parser.parseInternal, Option.bind_eq_bind, Option.bind_eq_some_iff] at hinternal
    obtain ⟨id, hid, _, -, _, -, _, -, he⟩ := hinternal
    obtain rfl := Option.some.inj he
    exact parseID_spelled hid
  · cases h

/-- Of what `Parser` accepts, the indices are right exactly if no id is written twice in the hosts
file and the number behind `--id` is one of them; an `int` must hold them all. -/
theorem hosts_right_iff (sorting : Parser.HostSort) (resolve : Str → Nat)
    (files : Str → Option Str) (argv : List Str) (parsed : Parsed) (hosts : List Host)
    (h : mainArguments sorting resolve files argv = .ok (parsed, hosts)) (content : Str)
    (hf : files parsed.hostsPath = some content) :
    HostsRight hosts parsed.id ↔ (writtenIds content).Nodup ∧
      (1 ≤ spelledId argv ∧ spelledId argv ≤ (writtenIds content).length) ∧
      (writtenIds content).length ≤ 2147483647 := by
  obtain ⟨hparse, hhosts⟩ := mainArguments_ok.mp h
  obtain ⟨hperm, hsorted, hmin, hmax⟩ := hosts_ok hhosts hf
  have hlen : hosts.length = (writtenIds content).length := by
    rw [← hperm.length_eq, List.length_map]
  have hrange := sorted_eq_range'_iff hperm hsorted hmin hmax
  rw [List.length_map] at hrange
  rw [parse_spelled hparse]
  constructor
  · intro hright
    exact ⟨hrange.mp hright.ids, hlen ▸ (hostsRight_of_ids hright.ids).mp hright⟩
  · rintro ⟨hnd, hrest⟩
    exact (hostsRight_of_ids (hrange.mpr hnd)).mpr (hlen ▸ hrest)

def insertionById : Parser.HostSort where
  sort := List.insertionSort fun a b => a.id ≤ b.id
  perm := List.perm_insertionSort _
  sorted := by
    have : IsTrans Host fun a b => a.id ≤ b.id := ⟨fun _ _ _ => Nat.le_trans⟩
    have : Std.Total fun a b : Host => a.id ≤ b.id := ⟨fun a b => Nat.le_total a.id b.id⟩
    exact fun hosts => List.pairwise_map.mpr (List.pairwise_insertionSort _ hosts)

def argvOf (id : Char) : List Str :=
  [['d'], ['-', '-', 'i', 'd'], [id], ['-', '-', 'h', 'o', 's', 't', 's'], ['h'],
    ['-', '-', 'o', 'u', 't', 'p', 'u', 't'], ['o'], ['c']]

def twoHosts : Str := ['2', ' ', 'b', ' ', '7', '\n', '\n', '1', ' ', 'a', ' ', '8', '\n']

theorem hosts_right_iff_two :
    HostsRight [⟨1, 0, 2048⟩, ⟨2, 0, 1792⟩] 1 ↔ (writtenIds twoHosts).Nodup ∧
      (1 ≤ spelledId (argvOf '1') ∧ spelledId (argvOf '1') ≤ (writtenIds twoHosts).length) ∧
      (writtenIds twoHosts).length ≤ 2147483647 :=
  hosts_right_iff insertionById (fun _ => 0) (fun _ => some twoHosts) (argvOf '1')
    ⟨1, ['h'], ['o'], ['c']⟩ _ rfl twoHosts rfl

/-- Of three lines two have the id 1, and no process has the id 2. -/
def idsTwice : Str :=
  ['1', ' ', 'a', ' ', '7', '\n', '1', ' ', 'b', ' ', '7', '\n', '3', ' ', 'c', ' ', '7', '\n']

theorem hosts_accepted_wrong : ∃ parsed hosts,
    mainArguments insertionById (fun _ => 0) (fun _ => some idsTwice) (argvOf '1') =
      .ok (parsed, hosts) ∧ ¬ HostsRight hosts parsed.id := by
  refine ⟨⟨1, ['h'], ['o'], ['c']⟩, [⟨1, 0, 1792⟩, ⟨1, 0, 1792⟩, ⟨3, 0, 1792⟩], rfl, fun h => ?_⟩
  exact absurd h.ids (by decide)

/-- An id of no line is accepted too. -/
example : (mainArguments insertionById (fun _ => 0) (fun _ => some twoHosts)
    (argvOf '3')).toOption.map (fun r => (thisProcess r.2 r.1.id).toOption) = some none := by
  decide

end DecentralizedBroadcast
