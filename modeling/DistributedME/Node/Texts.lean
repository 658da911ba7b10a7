import DistributedME.Files
import DistributedME.Packet

/-! The texts of packets: how nodes put them together from names and numbers, and how they take
them apart. Taking apart fails where the source uses an index past the end of the tokens. -/
namespace DistributedME.Node

def semicolon : UInt8 := 59
def minus : UInt8 := 45
def plus : UInt8 := 43

def toString (x : Int32) : Bytes :=
  if x.toInt < 0 then minus :: toDecimal x.toInt.natAbs else toDecimal x.toInt.natAbs

def isSpace (b : UInt8) : Bool := b = 32 || (9 ≤ b && b ≤ 13)

def isDigit (b : UInt8) : Bool := 48 ≤ b.toNat && b.toNat ≤ 57

def digitsValue (s : Bytes) : ℕ :=
  (s.takeWhile isDigit).foldl (fun value b => 10 * value + (b.toNat - 48)) 0

/-- The value is undefined where it is out of the range of int. -/
def atoi (s : Bytes) : Option Int32 :=
  let s := (cString s).dropWhile isSpace
  let value : ℤ :=
    if s.head? = some minus then -digitsValue s.tail
    else if s.head? = some plus then digitsValue s.tail
    else digitsValue s
  if -2 ^ 31 ≤ value ∧ value < 2 ^ 31 then some (Int32.ofInt value) else none

/-- get_msg of both strategies. -/
def getMsg (filename : Bytes) (me ourSequenceNumber : Int32) : Bytes :=
  filename ++ semicolon :: (toString me ++ hash :: toString ourSequenceNumber)

def twoTokens (delimiter : UInt8) (s : Bytes) : Option (Bytes × Bytes) := do
  let tokens := splitString delimiter s
  some (← tokens[0]?, ← tokens[1]?)

/-- The file whose strategy treats a message, and the text that it is given. -/
def Client.handleClientPacket (msg : Bytes) : Option (Bytes × Bytes) := twoTokens semicolon msg

/-- The j and their_sequence_number of treat_message. -/
def RACriticalSectionAlgStrategy.treatMessage (msg : Bytes) : Option (Int32 × Int32) := do
  let tokens ← twoTokens hash msg
  some (← atoi tokens.1, ← atoi tokens.2)

def MKWCriticalSectionAlgStrategy.getSequenceNumberFromMessage (msg : Bytes) : Option Int32 := do
  let tokens ← twoTokens hash msg
  atoi tokens.2

def Server.handleEnquiryRequest : List Bytes → Bytes
  | [] => []
  | [name] => name
  | name :: names => name ++ hash :: handleEnquiryRequest names

def Client.receiveEnquireResult (response : Bytes) : List Bytes := splitString hash response

def Client.requestWrite (filename : Bytes) (id timestamp : Int32) : Bytes :=
  filename ++ hash :: (toString id ++ comma :: toString timestamp)

/-- The file and the content that handleWriteRequest writes. -/
def Server.handleWriteRequest (msg : Bytes) : Option (Bytes × Bytes) := twoTokens hash msg

theorem twoTokens_append {delimiter : UInt8} {s t : Bytes} (hs : delimiter ∉ s)
    (ht : delimiter ∉ t) (hne : t ≠ []) :
    twoTokens delimiter (s ++ delimiter :: t) = some (s, t) := by
  rw [twoTokens, splitString_append hs, splitString_of_notMem ht hne]
  rfl

theorem toString_ne_nil (x : Int32) : toString x ≠ [] := by
  unfold toString
  split_ifs
  · exact List.cons_ne_nil _ _
  · exact toDecimal_ne_nil _

theorem length_toString (x : Int32) : (toString x).length ≤ 11 := by
  have hlow := x.le_toInt
  have hhigh := x.toInt_lt
  have hdigits := length_toDecimal (show x.toInt.natAbs ≤ 2 ^ 31 by omega)
  unfold toString
  split_ifs
  · exact Nat.succ_le_succ hdigits
  · exact Nat.le_succ_of_le hdigits

theorem notMem_toString {b : UInt8} (hlow : b.toNat < 48 ∨ 57 < b.toNat) (hb : b ≠ minus)
    (x : Int32) : b ∉ toString x := by
  have hdigits (y : ℕ) : b ∉ toDecimal y := by
    intro hmem
    have := digit_of_mem_toDecimal hmem
    omega
  unfold toString
  split_ifs
  · exact List.not_mem_cons_of_ne_of_not_mem hb (hdigits _)
  · exact hdigits _

/-- Neither a reader of lines nor a C string ends within a number. -/
theorem ending_notMem_toString {b : UInt8} (hb : b = newline ∨ b = 0) (x : Int32) :
    b ∉ toString x := by
  rcases hb with rfl | rfl
  · exact notMem_toString (.inl (by decide)) (by decide) x
  · exact notMem_toString (.inl (by decide)) (by decide) x

theorem isDigit_of_mem_toDecimal {x : ℕ} {b : UInt8} (h : b ∈ toDecimal x) :
    isDigit b = true := by
  have := digit_of_mem_toDecimal h
  simpa [isDigit] using this

theorem digitsValue_toDecimal (x : ℕ) : digitsValue (toDecimal x) = x := by
  have hall : (toDecimal x).takeWhile isDigit = toDecimal x :=
    List.takeWhile_eq_self_iff.mpr fun b hb => isDigit_of_mem_toDecimal hb
  rw [digitsValue, hall, toDecimal, List.foldl_map]
  conv_rhs => rw [← Nat.ofDigitChars_ten_toDigits (n := x), Nat.ofDigitChars_eq_foldl]
  apply List.foldl_ext
  intro value c hc
  obtain ⟨-, hhigh⟩ := Char.isDigit_iff_toNat.mp
    (Nat.isDigit_of_mem_toDigits (by decide) (by decide) hc)
  change c.toNat ≤ 57 at hhigh
  have hsmall : c.toNat % 2 ^ 8 = c.toNat := Nat.mod_eq_of_lt (by omega)
  rw [UInt8.toNat_ofNat', hsmall]
  rfl

private theorem exists_cons_toDecimal (x : ℕ) : ∃ b s, toDecimal x = b :: s ∧ isDigit b = true := by
  obtain ⟨b, s, hs⟩ := List.exists_cons_of_ne_nil (toDecimal_ne_nil x)
  exact ⟨b, s, hs, isDigit_of_mem_toDecimal (hs ▸ List.mem_cons_self)⟩

theorem isSpace_of_isDigit {b : UInt8} (h : isDigit b = true) : isSpace b = false := by
  simp only [isDigit, Bool.and_eq_true, decide_eq_true_eq] at h
  have hlow : ¬ b ≤ 13 := fun hb => absurd h.1 (Nat.not_le.mpr (Nat.lt_of_le_of_lt
    (UInt8.le_iff_toNat_le.mp hb) (by decide)))
  have hne : b ≠ 32 := by
    rintro rfl
    exact absurd h.1 (by decide)
  simp [isSpace, hne, hlow]

theorem atoi_toString (x : Int32) : atoi (toString x) = some x := by
  have hrange : -2 ^ 31 ≤ x.toInt ∧ x.toInt < 2 ^ 31 := ⟨x.le_toInt, x.toInt_lt⟩
  have hzero : 0 ∉ toString x := ending_notMem_toString (.inr rfl) x
  have hvalue := digitsValue_toDecimal x.toInt.natAbs
  obtain ⟨b, s, hs, hdigit⟩ := exists_cons_toDecimal x.toInt.natAbs
  rw [atoi, cString_eq hzero]
  by_cases hneg : x.toInt < 0
  · have hspace : (minus :: toDecimal x.toInt.natAbs).dropWhile isSpace =
        minus :: toDecimal x.toInt.natAbs := List.dropWhile_cons_of_neg (by decide)
    have hx : -(x.toInt.natAbs : ℤ) = x.toInt := by omega
    simp only [toString, if_pos hneg, hspace, List.head?_cons, List.tail_cons, if_true, hvalue, hx]
    rw [if_pos hrange, Int32.ofInt_toInt]
  · have hspace : (toDecimal x.toInt.natAbs).dropWhile isSpace = toDecimal x.toInt.natAbs := by
      rw [hs]
      exact List.dropWhile_cons_of_neg (by rw [isSpace_of_isDigit hdigit]; exact Bool.false_ne_true)
    have hminus : b ≠ minus := by
      rintro rfl
      cases hdigit
    have hplus : b ≠ plus := by
      rintro rfl
      cases hdigit
    have hx : (x.toInt.natAbs : ℤ) = x.toInt := by omega
    have hhead : (toDecimal x.toInt.natAbs).head? = some b := by rw [hs, List.head?_cons]
    simp only [toString, if_neg hneg, hspace, hhead, hvalue, hx, Option.some.injEq, hminus, hplus,
      if_false]
    rw [if_pos hrange, Int32.ofInt_toInt]

theorem splitString_handleEnquiryRequest {names : List Bytes}
    (h : ∀ name ∈ names, name ≠ [] ∧ hash ∉ name) :
    splitString hash (Server.handleEnquiryRequest names) = names := by
  induction names with
  | nil => rfl
  | cons name names ih =>
    obtain ⟨⟨hne, hname⟩, hnames⟩ := List.forall_mem_cons.mp h
    cases names with
    | nil => exact splitString_of_notMem hname hne
    | cons name' names =>
      rw [Server.handleEnquiryRequest, splitString_append hname, ih hnames]
      exact List.cons_ne_nil _ _

/-- Every text that nodes send is taken apart into what it was put together from. -/
theorem texts_decoded :
    (∀ (filename : Bytes) (me ourSequenceNumber : Int32), semicolon ∉ filename →
      ∃ msg, Client.handleClientPacket (getMsg filename me ourSequenceNumber) =
          some (filename, msg) ∧
        RACriticalSectionAlgStrategy.treatMessage msg = some (me, ourSequenceNumber) ∧
        MKWCriticalSectionAlgStrategy.getSequenceNumberFromMessage msg =
          some ourSequenceNumber) ∧
    (∀ names : List Bytes, (∀ name ∈ names, name ≠ [] ∧ hash ∉ name) →
      Client.receiveEnquireResult (Server.handleEnquiryRequest names) = names) ∧
    ∀ (filename : Bytes) (id timestamp : Int32), filename ≠ [] → hash ∉ filename →
      Server.handleWriteRequest (Client.requestWrite filename id timestamp) =
        some (filename, toString id ++ comma :: toString timestamp) := by
  refine ⟨fun filename me ourSequenceNumber hname => ?_, fun names hnames => ?_,
    fun filename id timestamp _ hname => ?_⟩
  · have hhash (x : Int32) : hash ∉ toString x :=
      notMem_toString (.inl (by decide)) (by decide) x
    have hsemicolon (x : Int32) : semicolon ∉ toString x :=
      notMem_toString (.inr (by decide)) (by decide) x
    have hmsg : semicolon ∉ toString me ++ hash :: toString ourSequenceNumber := by
      simp only [List.mem_append, List.mem_cons, not_or]
      exact ⟨hsemicolon me, by decide, hsemicolon ourSequenceNumber⟩
    have htokens := twoTokens_append (hhash me) (hhash ourSequenceNumber)
      (toString_ne_nil ourSequenceNumber)
    refine ⟨_, twoTokens_append hname hmsg (by simp), ?_, ?_⟩
    · rw [RACriticalSectionAlgStrategy.treatMessage, htokens]
      simp [atoi_toString]
    · rw [MKWCriticalSectionAlgStrategy.getSequenceNumberFromMessage, htokens]
      simp [atoi_toString]
  · exact splitString_handleEnquiryRequest hnames
  · have hline : hash ∉ toString id ++ comma :: toString timestamp := by
      simp only [List.mem_append, List.mem_cons, not_or]
      exact ⟨notMem_toString (.inl (by decide)) (by decide) id, by decide,
        notMem_toString (.inl (by decide)) (by decide) timestamp⟩
    exact twoTokens_append hname hline (by simp)

/-- A file name with the other delimiter in it, and negative numbers. -/
theorem texts_decoded_negative :
    (∃ msg, Client.handleClientPacket (getMsg [102, hash] (-1) (-2147483648)) =
        some ([102, hash], msg) ∧
      RACriticalSectionAlgStrategy.treatMessage msg = some (-1, -2147483648) ∧
      MKWCriticalSectionAlgStrategy.getSequenceNumberFromMessage msg = some (-2147483648)) ∧
    Client.receiveEnquireResult (Server.handleEnquiryRequest [[102], [103]]) = [[102], [103]] ∧
    Server.handleWriteRequest (Client.requestWrite [102] 0 7) = some ([102], [48, comma, 55]) :=
  ⟨texts_decoded.1 _ _ _ (by decide), texts_decoded.2.1 _ (by decide),
    texts_decoded.2.2 _ 0 7 (by decide) (by decide)⟩

end DistributedME.Node
