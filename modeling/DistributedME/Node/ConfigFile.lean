import DistributedME.Node.Scanning

/-! The config file of the clients: their addresses, a blank line and their quorums, and the two
functions that read it. -/
namespace DistributedME.ConfigFile
open Library Node

/-- The variables of getIpAddrsAndPortsFromConfig. Nothing is in the first two before the first
line is read. -/
structure Variables where
  ipAddr : Bytes
  port : Int32
  ipAddrS : List Bytes
  portS : List Int32

/-- The loop of getIpAddrsAndPortsFromConfig. -/
def readAddresses (v : Variables) : List Bytes → Option Variables
  | [] => some v
  | chunk :: chunks =>
    let buffer := cString chunk
    if buffer.length ≤ 1 then some v
    else
      (sscanf [.s 16 fun v ipAddr => { v with ipAddr := ipAddr },
        .d fun v port => { v with port := port }] buffer v).bind fun v =>
        readAddresses { v with ipAddrS := v.ipAddrS ++ [v.ipAddr], portS := v.portS ++ [v.port] }
          chunks

/-- A file that cannot be opened is closed all the same, which is not defined. -/
def getIpAddrsAndPortsFromConfig (file : Option Bytes) (v : Variables) : Option Variables :=
  file.bind fun content => readAddresses v (fgetsAll 255 (by decide) content)

/-- The first loop of getQuorumsFromConfig. -/
def skipAddresses : List Bytes → List Bytes
  | [] => []
  | chunk :: chunks => if (cString chunk).length ≤ 1 then chunks else skipAddresses chunks

/-- The second loop. -/
def readQuorums : List Bytes → Option (List (List Int32))
  | [] => some []
  | chunk :: chunks =>
    let buffer := cString chunk
    if buffer.length ≤ 1 then some []
    else ((splitString space buffer).mapM atoi).bind fun quorum =>
      (readQuorums chunks).map (quorum :: ·)

def getQuorumsFromConfig (file : Option Bytes) : Option (List (List Int32)) :=
  file.bind fun content => readQuorums (skipAddresses (fgetsAll 255 (by decide) content))

/-- A line with an address. -/
structure AddressLine where
  ipAddr : Bytes
  port : Int32
  word : IsWord ipAddr
  zero : 0 ∉ ipAddr
  length : ipAddr.length ≤ 15

def AddressLine.text (line : AddressLine) : Bytes := line.ipAddr ++ space :: toString line.port

/-- The id of a client, of type int, and the number of spaces behind it. -/
structure Entry where
  id : Bytes
  spaces : ℕ
  numeral : IsNumeral id
  range : digitsValue id < 2 ^ 31

def Entry.text (e : Entry) : Bytes := e.id ++ .replicate e.spaces space

def Entry.value (e : Entry) : Int32 := Int32.ofNat (digitsValue e.id)

/-- A line with a quorum. -/
structure QuorumLine where
  entries : List Entry
  ne_nil : entries ≠ []
  separated : ∀ e ∈ entries.dropLast, 0 < e.spaces
  length : (entries.flatMap Entry.text).length ≤ 253

def QuorumLine.text (line : QuorumLine) : Bytes := line.entries.flatMap Entry.text

/-- A config file for n clients. -/
structure Config (n : ℕ) where
  addresses : List AddressLine
  quorums : List QuorumLine
  finalNewline : Bool
  length_addresses : addresses.length = n
  length_quorums : quorums.length = n

def Config.text {n : ℕ} (config : Config n) : Bytes :=
  Lines.text newline (config.addresses.map AddressLine.text) ++ newline ::
    if config.finalNewline then Lines.text newline (config.quorums.map QuorumLine.text)
    else [newline].intercalate (config.quorums.map QuorumLine.text)

/-- One space between any two ids, and no more than the given number at the end. -/
def QuorumLine.Tight (line : QuorumLine) (trailing : ℕ) : Prop :=
  (∀ e ∈ line.entries.dropLast, e.spaces = 1) ∧
    ∀ e ∈ line.entries.getLast?, e.spaces ≤ trailing

/-- No spaces but those between ids. A last line without a newline may have one at its end, and
must not be a single character. -/
def Config.Tight {n : ℕ} (config : Config n) : Prop :=
  if config.finalNewline then ∀ line ∈ config.quorums, line.Tight 0
  else (∀ line ∈ config.quorums.dropLast, line.Tight 0) ∧
    ∀ line ∈ config.quorums.getLast?, line.Tight 1 ∧ 1 < line.text.length

namespace AddressLine

theorem notMem (line : AddressLine) {b : UInt8} (hb : b = newline ∨ b = 0) : b ∉ line.text := by
  have hport := ending_notMem_toString hb line.port
  simp only [text, List.mem_append, List.mem_cons, not_or]
  rcases hb with rfl | rfl
  · exact ⟨line.word.newline_notMem, by decide, hport⟩
  · exact ⟨line.zero, by decide, hport⟩

theorem length_text (line : AddressLine) : 1 < line.text.length ∧ line.text.length ≤ 27 := by
  have hip := List.length_pos_iff.mpr line.word.ne_nil
  have hlen := line.length
  have hport := length_toString line.port
  rw [text, List.length_append, List.length_cons]
  omega

end AddressLine

theorem readAddresses_line (v : Variables) (line : AddressLine) (chunks : List Bytes) :
    readAddresses v ((line.text ++ [newline]) :: chunks) =
      readAddresses { v with
        ipAddr := line.ipAddr, port := line.port
        ipAddrS := v.ipAddrS ++ [line.ipAddr], portS := v.portS ++ [line.port] } chunks := by
  have hzero : 0 ∉ line.text ++ [newline] :=
    List.mem_append.not.mpr (not_or.mpr ⟨line.notMem (.inr rfl), by decide⟩)
  have hlen := line.length_text.1
  have hscan : scanInt (Node.toString line.port ++ [newline]) =
      some (line.port.toInt, [newline]) := scanInt_toString _ (stops_newline [])
  rw [readAddresses, cString_eq hzero, if_neg (by rw [List.length_append]; omega), AddressLine.text,
    List.append_assoc, List.cons_append,
    sscanf_word line.word (ends_space _) (Nat.lt_succ_of_le line.length), sscanf_space,
    sscanf_int hscan]
  rfl

theorem readAddresses_lines (v : Variables) (lines : List AddressLine) (chunks : List Bytes) :
    ∃ w, readAddresses v
        ((lines.map AddressLine.text).map (· ++ [newline]) ++ [newline] :: chunks) = some w ∧
      w.ipAddrS = v.ipAddrS ++ lines.map AddressLine.ipAddr ∧
      w.portS = v.portS ++ lines.map AddressLine.port := by
  induction lines generalizing v with
  | nil => exact ⟨v, rfl, by simp, by simp⟩
  | cons line lines ih =>
    obtain ⟨w, hw, hips, hports⟩ := ih { v with
      ipAddr := line.ipAddr, port := line.port
      ipAddrS := v.ipAddrS ++ [line.ipAddr], portS := v.portS ++ [line.port] }
    refine ⟨w, ?_, by simpa using hips, by simpa using hports⟩
    rw [List.map_cons, List.map_cons, List.cons_append, readAddresses_line]
    exact hw

theorem skipAddresses_lines (lines : List AddressLine) (chunks : List Bytes) :
    skipAddresses ((lines.map AddressLine.text).map (· ++ [newline]) ++ [newline] :: chunks) =
      chunks := by
  induction lines with
  | nil => rfl
  | cons line lines ih =>
    have hzero : 0 ∉ line.text ++ [newline] :=
      List.mem_append.not.mpr (not_or.mpr ⟨line.notMem (.inr rfl), by decide⟩)
    have hlen := line.length_text.1
    rw [List.map_cons, List.map_cons, List.cons_append, skipAddresses, cString_eq hzero,
      if_neg (by rw [List.length_append]; omega), ih]

theorem splitString_spaces (spaces : ℕ) (rest : Bytes) :
    splitString space (.replicate spaces space ++ rest) =
      .replicate spaces [] ++ splitString space rest := by
  induction spaces with
  | zero => rfl
  | succ spaces ih =>
    rw [List.replicate_succ, List.cons_append, splitString, if_pos rfl, ih]
    rfl

theorem splitString_entry {e : Entry} (hspaces : 0 < e.spaces) (rest : Bytes) :
    splitString space (e.text ++ rest) =
      e.id :: (.replicate (e.spaces - 1) [] ++ splitString space rest) := by
  obtain ⟨spaces, hs⟩ := Nat.exists_eq_add_one_of_ne_zero (Nat.ne_of_gt hspaces)
  rw [Entry.text, hs, List.replicate_succ, List.append_assoc, List.cons_append,
    splitString_append (e.numeral.notMem rfl), splitString_spaces, Nat.add_sub_cancel]

theorem mapM_cons_eq_some {token : Bytes} {tokens : List Bytes} {x : Int32} {xs : List Int32} :
    (token :: tokens).mapM atoi = some (x :: xs) ↔
      atoi token = some x ∧ tokens.mapM atoi = some xs := by
  rw [List.mapM_cons]
  cases atoi token <;> cases tokens.mapM atoi <;> simp

theorem length_of_mapM {tokens : List Bytes} {xs : List Int32}
    (h : tokens.mapM atoi = some xs) : tokens.length = xs.length := by
  induction tokens generalizing xs with
  | nil =>
    cases h
    rfl
  | cons token tokens ih =>
    rw [List.mapM_cons] at h
    obtain ⟨x, hx, h⟩ := Option.bind_eq_some_iff.mp h
    obtain ⟨xs, hxs, h⟩ := Option.bind_eq_some_iff.mp h
    cases h
    exact congrArg Nat.succ (ih hxs)

/-- What is left of a line behind its last space, and the spaces that it may have before. -/
def Ending (ending : Bytes) (trailing : ℕ) : Prop :=
  ending = [newline] ∧ trailing = 0 ∨ ending = [] ∧ trailing = 1

section tokens
variable {ending : Bytes} {trailing : ℕ}

/-- The last entry of a line gives one token if no spaces come behind it that must not. -/
theorem splitString_last (e : Entry) (hend : Ending ending trailing) :
    if e.spaces ≤ trailing then
      splitString space (e.text ++ ending) = [e.id ++ ending]
    else 1 < (splitString space (e.text ++ ending)).length := by
  have hid : space ∉ e.id := e.numeral.notMem rfl
  by_cases hspaces : e.spaces = 0
  · have hnot : space ∉ e.id ++ ending := by
      refine List.mem_append.not.mpr (not_or.mpr ⟨hid, ?_⟩)
      rcases hend with ⟨rfl, -⟩ | ⟨rfl, -⟩ <;> decide
    rw [if_pos (by omega), Entry.text, hspaces, List.replicate_zero, List.append_nil]
    exact splitString_of_notMem hnot (by simp [e.numeral.ne_nil])
  · rw [splitString_entry (Nat.pos_of_ne_zero hspaces)]
    rcases hend with ⟨rfl, rfl⟩ | ⟨rfl, rfl⟩
    · rw [if_neg (by omega)]
      simp [splitString, space, newline]
    · split_ifs with hle
      · rw [show e.spaces = 1 by omega]
        simp [splitString]
      · simp [splitString]
        omega

theorem length_le_splitString {entries : List Entry} (hne : entries ≠ [])
    (hsep : ∀ e ∈ entries.dropLast, 0 < e.spaces) (hend : Ending ending trailing) :
    entries.length ≤ (splitString space (entries.flatMap Entry.text ++ ending)).length := by
  induction entries with
  | nil => exact absurd rfl hne
  | cons e entries ih =>
    cases entries with
    | nil =>
      have hlast := splitString_last e hend
      rw [List.flatMap_singleton]
      split_ifs at hlast
      · rw [hlast]
        rfl
      · exact hlast.le
    | cons e' entries =>
      rw [List.dropLast_cons_cons] at hsep
      obtain ⟨hspaces, hsep⟩ := List.forall_mem_cons.mp hsep
      have := ih (List.cons_ne_nil _ _) hsep
      rw [List.flatMap_cons, List.append_assoc, splitString_entry hspaces]
      simp only [List.length_cons, List.length_append] at this ⊢
      omega

/-- A line is read as its ids if it has no spaces that it must not have, and only then. -/
theorem mapM_tokens_iff {entries : List Entry} (hne : entries ≠ [])
    (hsep : ∀ e ∈ entries.dropLast, 0 < e.spaces) (hend : Ending ending trailing) :
    (splitString space (entries.flatMap Entry.text ++ ending)).mapM atoi =
        some (entries.map Entry.value) ↔
      (∀ e ∈ entries.dropLast, e.spaces = 1) ∧ ∀ e ∈ entries.getLast?, e.spaces ≤ trailing := by
  have hstops : Stops ending ∧ 0 ∉ ending := by
    rcases hend with ⟨rfl, -⟩ | ⟨rfl, -⟩
    · exact ⟨stops_newline [], by decide⟩
    · exact ⟨stops_nil, List.not_mem_nil⟩
  induction entries with
  | nil => exact absurd rfl hne
  | cons e entries ih =>
    cases entries with
    | nil =>
      have hlast := splitString_last e hend
      rw [List.flatMap_singleton]
      simp only [List.dropLast_singleton, List.getLast?_singleton, Option.mem_some_iff]
      split_ifs at hlast with hle
      · rw [hlast]
        refine iff_of_true (mapM_cons_eq_some.mpr ⟨?_, rfl⟩) ⟨by simp, fun _ h => h ▸ hle⟩
        exact e.numeral.atoi_append e.range hstops.1 hstops.2
      · refine iff_of_false (fun hall => ?_) fun hall => hle (hall.2 e rfl)
        have := length_of_mapM hall
        simp only [List.length_map, List.length_singleton] at this
        omega
    | cons e' entries =>
      rw [List.dropLast_cons_cons] at hsep ⊢
      obtain ⟨hspaces, hsep⟩ := List.forall_mem_cons.mp hsep
      have hle := length_le_splitString (List.cons_ne_nil e' entries) hsep hend
      rw [List.flatMap_cons, List.append_assoc, splitString_entry hspaces, List.map_cons,
        List.forall_mem_cons, List.getLast?_cons_cons]
      by_cases hone : e.spaces = 1
      · have hid := e.numeral.atoi_append e.range stops_nil List.not_mem_nil
        rw [List.append_nil] at hid
        rw [hone, Nat.sub_self, List.replicate_zero, List.nil_append, and_iff_right rfl]
        exact (mapM_cons_eq_some.trans (and_iff_right hid)).trans
          (ih (List.cons_ne_nil _ _) hsep)
      · refine iff_of_false (fun hall => ?_) fun hall => hone hall.1.1
        have := length_of_mapM (mapM_cons_eq_some.mp hall).2
        simp only [List.length_append, List.length_replicate, List.length_map] at this hle
        omega

end tokens

namespace QuorumLine
variable (line : QuorumLine)

def quorum : List Int32 := line.entries.map Entry.value

theorem notMem {b : UInt8} (hb : b = newline ∨ b = 0) : b ∉ line.text := by
  intro hmem
  obtain ⟨e, he, hmem⟩ := List.mem_flatMap.mp hmem
  rcases List.mem_append.mp hmem with hmem | hmem
  · refine e.numeral.notMem ?_ hmem
    rcases hb with rfl | rfl <;> rfl
  · obtain rfl := List.eq_of_mem_replicate hmem
    rcases hb with hb | hb <;> cases hb

theorem text_ne_nil : line.text ≠ [] := by
  obtain ⟨e, entries, heq⟩ := List.exists_cons_of_ne_nil line.ne_nil
  simp [text, heq, Entry.text, e.numeral.ne_nil]

theorem mapM_tokens_iff {ending : Bytes} {trailing : ℕ} (hend : Ending ending trailing) :
    (splitString space (line.text ++ ending)).mapM atoi = some line.quorum ↔
      line.Tight trailing :=
  ConfigFile.mapM_tokens_iff line.ne_nil line.separated hend

end QuorumLine

theorem readQuorums_line (line : QuorumLine) (chunks : List Bytes) (quorums : List (List Int32)) :
    readQuorums ((line.text ++ [newline]) :: chunks) = some (line.quorum :: quorums) ↔
      line.Tight 0 ∧ readQuorums chunks = some quorums := by
  have hzero : 0 ∉ line.text ++ [newline] :=
    List.mem_append.not.mpr (not_or.mpr ⟨line.notMem (.inr rfl), by decide⟩)
  have hlen := List.length_pos_iff.mpr line.text_ne_nil
  have hiff := line.mapM_tokens_iff (.inl ⟨rfl, rfl⟩)
  rw [readQuorums, cString_eq hzero,
    if_neg (by rw [List.length_append, List.length_singleton]; omega), ← hiff]
  cases (splitString space (line.text ++ [newline])).mapM atoi <;> cases readQuorums chunks <;>
    simp

/-- A last line without a newline, which is taken for a blank line if it is a single character. -/
theorem readQuorums_last (line : QuorumLine) :
    readQuorums [line.text] = some [line.quorum] ↔ line.Tight 1 ∧ 1 < line.text.length := by
  have hiff := line.mapM_tokens_iff (.inr ⟨rfl, rfl⟩)
  rw [List.append_nil] at hiff
  rw [readQuorums, cString_eq (line.notMem (.inr rfl))]
  split_ifs with hlen
  · exact iff_of_false (fun h => nomatch h) fun h => absurd h.2 (Nat.not_lt.mpr hlen)
  · rw [← hiff, and_iff_left (Nat.lt_of_not_le hlen)]
    cases (splitString space line.text).mapM atoi <;> simp [readQuorums]

theorem readQuorums_lines (lines : List QuorumLine) (chunks : List Bytes)
    (quorums : List (List Int32)) :
    readQuorums ((lines.map QuorumLine.text).map (· ++ [newline]) ++ chunks) =
        some (lines.map QuorumLine.quorum ++ quorums) ↔
      (∀ line ∈ lines, line.Tight 0) ∧ readQuorums chunks = some quorums := by
  induction lines with
  | nil => simp
  | cons line lines ih =>
    rw [List.forall_mem_cons, and_assoc, ← ih]
    exact readQuorums_line line _ _

namespace Config
variable {n : ℕ} (config : Config n)

/-- The chunks that fgets reads behind the blank line. -/
def quorumChunks : List Bytes :=
  if config.finalNewline then (config.quorums.map QuorumLine.text).map (· ++ [newline])
  else (config.quorums.dropLast.map QuorumLine.text).map (· ++ [newline]) ++
    config.quorums.getLast?.toList.map QuorumLine.text

theorem fgetsAll_text : fgetsAll 255 (by decide) config.text =
    (config.addresses.map AddressLine.text).map (· ++ [newline]) ++
      [newline] :: config.quorumChunks := by
  have haddress : ∀ text ∈ config.addresses.map AddressLine.text,
      newline ∉ text ∧ text.length < 255 - 1 := by
    simp only [List.forall_mem_map]
    intro line _
    have := line.length_text.2
    exact ⟨line.notMem (.inl rfl), by omega⟩
  have hquorum (lines : List QuorumLine) : ∀ text ∈ lines.map QuorumLine.text,
      newline ∉ text ∧ text.length < 255 - 1 := by
    simp only [List.forall_mem_map]
    exact fun line _ => ⟨line.notMem (.inl rfl), Nat.lt_succ_of_le line.length⟩
  rw [fgetsAll, text, Lines.chunks_text_append haddress, Lines.chunks_sep_cons, quorumChunks]
  congr 2
  split_ifs
  · exact Lines.chunks_text (hquorum config.quorums)
  · rcases List.eq_nil_or_concat' config.quorums with hnil | ⟨lines, line, hconcat⟩
    · simp [hnil]
    · have hline := Nat.le_succ_of_le line.length
      rw [hconcat, List.map_append, List.map_singleton, Lines.intercalate_concat,
        Lines.chunks_text_append (hquorum lines),
        Lines.chunks_of_notMem (line.notMem (.inl rfl)) line.text_ne_nil hline]
      simp

/-- Both functions return what the file says. -/
def Parsed (ipAddr : Bytes) (port : Int32) : Prop :=
  (∃ v, getIpAddrsAndPortsFromConfig (some config.text) ⟨ipAddr, port, [], []⟩ = some v ∧
    v.ipAddrS = config.addresses.map AddressLine.ipAddr ∧
    v.portS = config.addresses.map AddressLine.port) ∧
  getQuorumsFromConfig (some config.text) = some (config.quorums.map QuorumLine.quorum)

theorem getQuorumsFromConfig_iff : getQuorumsFromConfig (some config.text) =
    some (config.quorums.map QuorumLine.quorum) ↔ config.Tight := by
  rw [getQuorumsFromConfig, Option.bind_some, config.fgetsAll_text, skipAddresses_lines]
  unfold quorumChunks Tight
  split_ifs
  · have hlines := readQuorums_lines config.quorums [] []
    rw [List.append_nil, List.append_nil] at hlines
    exact hlines.trans (and_iff_left rfl)
  · rcases List.eq_nil_or_concat' config.quorums with hnil | ⟨lines, line, hconcat⟩
    · rw [hnil]
      simp [readQuorums]
    · have hlines := readQuorums_lines lines [line.text] [line.quorum]
      rw [readQuorums_last] at hlines
      simpa [hconcat] using hlines

theorem getIpAddrsAndPortsFromConfig_text (ipAddr : Bytes) (port : Int32) :
    ∃ v, getIpAddrsAndPortsFromConfig (some config.text) ⟨ipAddr, port, [], []⟩ = some v ∧
      v.ipAddrS = config.addresses.map AddressLine.ipAddr ∧
      v.portS = config.addresses.map AddressLine.port := by
  rw [getIpAddrsAndPortsFromConfig, Option.bind_some, config.fgetsAll_text]
  exact readAddresses_lines ⟨ipAddr, port, [], []⟩ config.addresses config.quorumChunks

end Config

/-- The config file is parsed to what it says just when its quorums have no spaces but single
ones between ids, except for one space at the very end, and the file does not end in a line of
a single character. -/
theorem config_parsed_iff {n : ℕ} (config : Config n) (ipAddr : Bytes) (port : Int32) :
    config.Parsed ipAddr port ↔ config.Tight :=
  (and_iff_right (config.getIpAddrsAndPortsFromConfig_text ipAddr port)).trans
    config.getQuorumsFromConfig_iff

instance (line : QuorumLine) (trailing : ℕ) : Decidable (line.Tight trailing) :=
  inferInstanceAs (Decidable ((∀ e ∈ line.entries.dropLast, e.spaces = 1) ∧
    ∀ e ∈ line.entries.getLast?, e.spaces ≤ trailing))

/-- An id as it is usually written. -/
def Entry.ofId (id : ℕ) (h : id < 2 ^ 31) (spaces : ℕ) : Entry :=
  ⟨toDecimal id, spaces, isNumeral_toDecimal id, (digitsValue_toDecimal id).trans_lt h⟩

/-- Two clients on one machine, each with both in its quorum. The ids of the first line are two
spaces apart. -/
def wideConfig : Config 2 where
  addresses := (List.range 2).map fun i =>
    ⟨[49, 50, 55, 46, 48, 46, 48, 46, 49], 26350 + Int32.ofNat i,
      isWord_of_all (by decide) (by decide), by decide, by decide⟩
  quorums :=
    [⟨[.ofId 0 (by decide) 2, .ofId 1 (by decide) 0], by simp, by decide, by decide⟩,
      ⟨[.ofId 1 (by decide) 1, .ofId 0 (by decide) 0], by simp, by decide, by decide⟩]
  finalNewline := true
  length_addresses := rfl
  length_quorums := rfl

/-- The empty token between the two spaces is taken for client 0. -/
theorem config_parsed_fails :
    ¬ ∀ (n : ℕ) (config : Config n) (ipAddr : Bytes) (port : Int32), config.Parsed ipAddr port := by
  intro h
  have htight := wideConfig.getQuorumsFromConfig_iff.mp (h 2 wideConfig [] 0).2
  exact absurd (htight _ List.mem_cons_self) (by decide)

end DistributedME.ConfigFile
