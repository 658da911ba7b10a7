import DistributedME.Program.System

/-! The messages of the exclusion algorithm on the connections between clients: their texts, and
which steps change them. -/
namespace DistributedME.Program
open Library
variable {n m : ℕ}

def isExclusion (p : Cluster.Message) : Bool :=
  Cluster.isCriticalSectionAlgMessage p.messageType .ra

/-- The messages of the exclusion algorithm that are in flight. -/
def exclusion (s : Cluster.State n m) (i j : Fin n) : List Cluster.Message :=
  (s.inFlight (.client i) (.client j)).filter isExclusion

/-- The message about a file that a packet carries. -/
def read (filename : Bytes) (p : Cluster.Message) : Option RicartAgrawala.Message := do
  let (f, msg) ← Node.Client.handleClientPacket p.msg
  let (_, number) ← Node.RACriticalSectionAlgStrategy.treatMessage msg
  if f = filename then
    if p.messageType = .clientReplyCsClient then some (.reply number.toInt.toNat)
    else some (.request number.toInt.toNat)
  else none

section texts
variable {filename : Bytes}

theorem hash_notMem_toString (x : Int32) : hash ∉ Node.toString x :=
  Node.notMem_toString (.inl (by decide)) (by decide) x

theorem semicolon_notMem_toString (x : Int32) : Node.semicolon ∉ Node.toString x :=
  Node.notMem_toString (.inr (by decide)) (by decide) x

theorem handleClientPacket_getMsg (hname : Node.semicolon ∉ filename) (me number : Int32) :
    Node.Client.handleClientPacket (Node.getMsg filename me number) =
      some (filename, Node.toString me ++ hash :: Node.toString number) := by
  apply Node.twoTokens_append hname
  · simp only [List.mem_append, List.mem_cons, not_or]
    exact ⟨semicolon_notMem_toString me, by decide, semicolon_notMem_toString number⟩
  · simp

theorem splitString_numbers (me number : Int32) :
    splitString hash (Node.toString me ++ hash :: Node.toString number) =
      [Node.toString me, Node.toString number] := by
  rw [splitString_append (hash_notMem_toString me),
    splitString_of_notMem (hash_notMem_toString number) (Node.toString_ne_nil number)]

theorem isExclusion_packet (filename : Bytes) (me : Fin n) (message : RicartAgrawala.Message) :
    isExclusion (packet filename me message) = true := by
  cases message <;> rfl

theorem read_packet (hname : Node.semicolon ∉ filename) (me : Fin n)
    {message : RicartAgrawala.Message} (hnumber : ourSequenceNumber message < 2 ^ 31)
    (filename' : Bytes) : read filename' (packet filename me message) =
      if filename = filename' then some message else none := by
  have htokens : Node.RACriticalSectionAlgStrategy.treatMessage
      (Node.toString (Int32.ofNat me) ++ hash ::
        Node.toString (Int32.ofNat (ourSequenceNumber message))) =
        some (Int32.ofNat me, Int32.ofNat (ourSequenceNumber message)) := by
    rw [Node.RACriticalSectionAlgStrategy.treatMessage, Node.twoTokens, splitString_numbers]
    simp [Node.atoi_toString]
  rw [read, packet, handleClientPacket_getMsg hname]
  simp only [Option.bind_eq_bind, Option.bind_some, htokens, Int32.toInt_ofNat_of_lt hnumber]
  cases message <;> rfl

theorem index_ofNat (hn : n < 2 ^ 31) (j : Fin n) : index n (Int32.ofNat j) = some j := by
  have hj : (Int32.ofNat j).toInt = j := Int32.toInt_ofNat_of_lt (j.isLt.trans hn)
  rw [index, dif_pos (by rw [hj]; exact ⟨Int.natCast_nonneg _, j.isLt⟩)]
  simp [hj]

/-- A text that client j has put together is treated as the message that it stands for. -/
theorem treatMessage_numbers (hn : n < 2 ^ 31) (c : RicartAgrawala.Strategy n) (me j : Fin n)
    {message : RicartAgrawala.Message} (hnumber : ourSequenceNumber message < 2 ^ 31) :
    treatMessage c me (messageType message) (Node.toString (Int32.ofNat j) ++
        hash :: Node.toString (Int32.ofNat (ourSequenceNumber message))) =
      some ((c.treatMessage me j message).1, (c.treatMessage me j message).2.map (j, ·)) := by
  have hvalue := Int32.toInt_ofNat_of_lt hnumber
  rw [treatMessage, splitString_numbers]
  cases message with
  | request theirSequenceNumber =>
    simp only [ourSequenceNumber] at hvalue
    simp [-Int32.toNat_toInt, Node.atoi_toString, index_ofNat hn, messageType,
      ourSequenceNumber, hvalue, RicartAgrawala.Strategy.treatMessage]
  | reply theirSequenceNumber =>
    simp [Node.atoi_toString, index_ofNat hn, messageType, RicartAgrawala.Strategy.treatMessage]

end texts

section frame
variable {s t : Cluster.State n m}

theorem exclusion_eq_of_inFlight (h : t.inFlight = s.inFlight) : exclusion t = exclusion s := by
  funext x y
  rw [exclusion, exclusion, h]

/-- What is sent to servers, and what servers send. -/
theorem exclusion_post {a : Cluster.Party n m} {out : Cluster.Party n m → List Cluster.Message}
    (hout : ∀ y, (out (.client y)).filter isExclusion = []) :
    exclusion (s.post a out) = exclusion s := by
  funext x y
  simp only [exclusion, Cluster.inFlight_post, Network.post_apply, List.filter_append]
  split_ifs
  · rw [hout, List.append_nil]
  · exact List.append_nil _

theorem exclusion_post_only {a b : Cluster.Party n m} {p : Cluster.Message}
    (hp : isExclusion p = false) : exclusion (s.post a (Network.only b [p])) = exclusion s := by
  apply exclusion_post
  intro y
  unfold Network.only
  split_ifs
  · rw [List.filter_cons_of_neg (by simp [hp]), List.filter_nil]
  · rfl

theorem exclusion_receive {a b : Cluster.Party n m} {rest : List Cluster.Message}
    (hab : ∀ x y, ¬ (Cluster.Party.client x = b ∧ Cluster.Party.client y = a)) :
    exclusion (s.receive a b rest) = exclusion s := by
  funext x y
  rw [exclusion, Cluster.inFlight_receive, Network.put_of_ne _ _ (hab x y)]
  rfl

theorem exclusion_passServer {i : Fin n} {k : Fin m} (h : Cluster.passServer s i k = some t) :
    exclusion t = exclusion s := by
  cases hthread : (s.client i).serverThread k with
  | reading =>
    simp only [Cluster.passServer, hthread] at h
    split_ifs at h
    cases h
    rfl
  | treating =>
    simp only [Cluster.passServer, hthread, Option.some.injEq] at h
    subst h
    rfl
  | sending next =>
    simp only [Cluster.passServer, hthread] at h
    by_cases hnext : next < n
    · rw [dif_pos hnext] at h
      obtain ⟨c, -, rfl⟩ := Option.map_eq_some_iff.mp h
      rw [exclusion_post_only rfl]
      rfl
    · rw [dif_neg hnext, Option.some.injEq] at h
      subst h
      rfl
  | left =>
    simp only [Cluster.passServer, hthread] at h
    cases h

theorem exclusion_passRequests {k : Fin m} {i : Fin n}
    (h : Cluster.passRequests s k i = some t) : exclusion t = exclusion s := by
  cases hthread : (s.server k).thread i with
  | reading =>
    simp only [Cluster.passRequests, hthread] at h
    split_ifs at h
    cases h
    rfl
  | treating =>
    simp only [Cluster.passRequests, hthread, Option.some.injEq] at h
    subst h
    rfl
  | sending next =>
    simp only [Cluster.passRequests, hthread] at h
    split_ifs at h
    · cases h
      rw [exclusion_post_only rfl]
      rfl
    · cases h
      rfl
  | left =>
    simp only [Cluster.passRequests, hthread] at h
    cases h

theorem inFlight_passClient {i j : Fin n} (h : Cluster.passClient s i j = some t) :
    t.inFlight = s.inFlight := by
  cases hthread : (s.client i).clientThread j with
  | reading =>
    simp only [Cluster.passClient, hthread] at h
    by_cases hself : i = j
    · rw [if_pos hself, Option.some.injEq] at h
      subst h
      rfl
    · rw [if_neg hself] at h
      split_ifs at h
      cases h
      rfl
  | treating =>
    simp only [Cluster.passClient, hthread, Option.some.injEq] at h
    subst h
    rfl
  | sending next | left =>
    simp only [Cluster.passClient, hthread] at h
    cases h

/-- The steps that neither send nor take messages of the exclusion algorithm. -/
def silent : Cluster.Action n m → Bool
  | .sendCriticalSectionMessage _ _ _ | .handleClientPacket _ _ _ => false
  | _ => true

theorem exclusion_of_silent {config : Cluster.Config n m} {a : Cluster.Action n m}
    (ha : silent a = true) (h : Cluster.step config s a = some t) : exclusion t = exclusion s := by
  cases a with
  | sendCriticalSectionMessage | handleClientPacket => cases ha
  | mainStep i =>
    obtain ⟨⟨c, out, events⟩, -, rfl⟩ := Option.map_eq_some_iff.mp h
    have hpost : exclusion ((s.setClient i c).post (.client i) (Cluster.toServers out)) =
        exclusion s := exclusion_post fun _ => rfl
    exact hpost
  | treatServerPacket i k =>
    simp only [Cluster.step] at h
    split at h
    · cases h
    · next packet rest hmail =>
      split_ifs at h
      cases h
      have hreceive : exclusion (s.receive (.client i) (.server k) rest) = exclusion s := by
        apply exclusion_receive
        rintro x y ⟨hx, -⟩
        cases hx
      exact hreceive
  | passServer i k => exact exclusion_passServer h
  | passClient i j => exact exclusion_eq_of_inFlight (inFlight_passClient h)
  | treatRequest k i =>
    simp only [Cluster.step] at h
    split at h
    · cases h
    · next packet rest hmail =>
      split_ifs at h
      obtain ⟨⟨v, answers⟩, hv, rfl⟩ := Option.map_eq_some_iff.mp h
      have hanswers : ∀ p ∈ answers, isExclusion p = false := by
        intro p hp
        rcases Cluster.treatPacket_cases hv with ⟨-, _, _, _, -, -, rfl⟩ | ⟨-, -, _, -, rfl⟩ |
          ⟨-, -, -, hout⟩
        · rw [List.mem_singleton.mp hp]
          rfl
        · rw [List.mem_singleton.mp hp]
          rfl
        · rw [isExclusion, hout p hp]
          rfl
      have hreceive : exclusion (s.receive (.server k) (.client i) rest) = exclusion s := by
        apply exclusion_receive
        rintro x y ⟨-, hy⟩
        cases hy
      rw [exclusion_post]
      · exact hreceive
      · intro y
        apply List.filter_eq_nil_iff.mpr
        intro p hp
        rw [hanswers p (Network.mem_only.mp hp).2]
        exact Bool.false_ne_true
  | passRequests k i => exact exclusion_passRequests h

theorem exclusion_send {config : Cluster.Config n m} {i j : Fin n} {p : Cluster.Message}
    (hp : isExclusion p = true)
    (h : Cluster.step config s (.sendCriticalSectionMessage i j p) = some t) (x y : Fin n) :
    exclusion t x y = exclusion s x y ++ if x = i ∧ y = j then [p] else [] := by
  simp only [Cluster.step] at h
  split_ifs at h
  obtain ⟨c, -, rfl⟩ := Option.map_eq_some_iff.mp h
  simp only [exclusion, Cluster.inFlight_post, Cluster.inFlight_setClient, Network.post_apply,
    List.filter_append, Cluster.Party.client.injEq]
  apply congrArg
  by_cases hx : x = i
  · rw [if_pos hx]
    by_cases hy : y = j
    · rw [hy, Network.only_self, if_pos ⟨hx, rfl⟩, List.filter_cons_of_pos hp, List.filter_nil]
    · rw [Network.only_of_ne _ fun h => hy (Cluster.Party.client.inj h), if_neg fun h => hy h.2,
        List.filter_nil]
  · rw [if_neg hx, if_neg fun h => hx h.1, List.filter_nil]

/-- The packet that is handled is the oldest one, except among those of a client to itself. -/
theorem exclusion_handle {config : Cluster.Config n m} {i j : Fin n} {place : ℕ}
    {p : Cluster.Message} (hp : (s.inFlight (.client j) (.client i))[place]? = some p)
    (h : Cluster.step config s (.handleClientPacket i j place) = some t) :
    (isExclusion p = false ∧ exclusion t = exclusion s) ∨
    isExclusion p = true ∧ p ∈ exclusion s j i ∧ (i ≠ j → ∃ rest, exclusion s j i = p :: rest ∧
      ∀ x y, exclusion t x y = if x = j ∧ y = i then rest else exclusion s x y) := by
  obtain ⟨before, behind, hmail, herase, hlength⟩ := Network.split_at hp
  simp only [Cluster.step, hp] at h
  split_ifs at h with hthread
  cases h
  have hafter (x y : Fin n) : exclusion ((s.receive (.client i) (.client j)
      ((s.inFlight (.client j) (.client i)).eraseIdx place)).setClient i
        ((s.client i).handleClientPacket j p)) x y =
      if x = j ∧ y = i then (before ++ behind).filter isExclusion else exclusion s x y := by
    simp only [exclusion, Cluster.inFlight_setClient, Cluster.inFlight_receive, herase,
      Network.put, Cluster.Party.client.injEq]
    split_ifs <;> rfl
  cases he : isExclusion p with
  | false =>
    refine .inl ⟨rfl, ?_⟩
    funext x y
    rw [hafter]
    split_ifs with hxy
    · rw [exclusion, hxy.1, hxy.2, hmail, List.filter_append, List.filter_append,
        List.filter_cons_of_neg (by simp [he])]
    · rfl
  | true =>
    refine .inr ⟨rfl, ?_, fun hij => ?_⟩
    · rw [exclusion, hmail]
      exact List.mem_filter.mpr ⟨List.mem_append_right _ List.mem_cons_self, he⟩
    · have hplace := hthread.2.resolve_left hij
      rw [hplace, List.length_eq_zero_iff] at hlength
      subst hlength
      refine ⟨behind.filter isExclusion, ?_, hafter⟩
      rw [exclusion, hmail, List.nil_append, List.filter_cons_of_pos he]

end frame

end DistributedME.Program
