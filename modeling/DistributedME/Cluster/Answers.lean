import DistributedME.Cluster.Replicas
import DistributedME.Cluster.Shutdown

/-! No server is stuck with a request, and a client whose exchanges with the servers are over
can go on, in every run and under any exclusion algorithm. -/
namespace DistributedME.Cluster
open Library
variable {n m : ℕ}

/-- A file that does not exist, or has a line that is not blank. -/
def Legible (file : Option Bytes) : Prop :=
  ∀ content, file = some content → ∃ lines, content = Lines.text newline lines ∧
    (∀ line ∈ lines, ProperLine line) ∧ ∃ line ∈ lines, line ≠ []

theorem Legible.read {file : Option Bytes} (h : Legible file) :
    ∃ result, readLastLineOfFile file = some result := by
  cases file with
  | none => exact ⟨[], rfl⟩
  | some content =>
    obtain ⟨lines, rfl, hproper, line, hline, hne⟩ := h content rfl
    rw [readLastLineOfFile_text hproper]
    cases hlast : Lines.last lines with
    | none => exact absurd (Lines.last_eq_none_iff.mp hlast line hline) hne
    | some result => exact ⟨result, rfl⟩

theorem Legible.write {file : Option Bytes} (h : Legible file) {line : Bytes}
    (hline : ProperLine line) (hne : line ≠ []) :
    Legible (some (writeToFile file line)) := by
  rintro _ ⟨⟩
  cases file with
  | none =>
    refine ⟨[line], (writeToFile_text [] line : _), ?_, line, List.mem_singleton_self _, hne⟩
    intro line' hline'
    rw [List.mem_singleton.mp hline']
    exact hline
  | some content =>
    obtain ⟨lines, rfl, hproper, -⟩ := h content rfl
    refine ⟨lines ++ [line], writeToFile_text lines line, ?_, line, by simp, hne⟩
    intro line' hline'
    rcases List.mem_append.mp hline' with hline' | hline'
    · exact hproper line' hline'
    · rw [List.mem_singleton.mp hline']
      exact hline

def Traffic.Legible (v : Traffic n m) : Prop := ∀ k filename, Cluster.Legible (v.files k filename)

theorem Traffic.Legible.move {config : Config n m} {v v' : Traffic n m} (h : v.Legible)
    (hx : v.Exchanged) (hs : v.Stamped) (hmove : v.Move config v') : v'.Legible := by
  cases hmove with
  | @write k i packet rest filename line tokens hk ht hsplit =>
    obtain ⟨g, t, next, hm, hmsg⟩ := (hx i).writeText k packet (hk ▸ List.mem_cons_self) ht
    rw [hmsg, splitString_request ((hs i).named g t next hm)] at hsplit
    simp only [List.cons.injEq] at hsplit
    obtain ⟨rfl, rfl, -⟩ := hsplit
    obtain ⟨-, hnumber, -⟩ := (hs i).current g t next hm
    have hline := properLine_writeLine (i.isLt.trans config.ids) hnumber
    intro l f
    simp only [update_update_apply]
    split_ifs
    · exact (h k g).write hline (writeLine_ne_nil _ _)
    · exact h l f
  | _ => exact h

theorem legible_of_reachable {config : Config n m}
    (hfiles : ∀ filename, Legible (config.files filename))
    (hnames : ∀ i, ∀ request ∈ config.input i, hash ∉ request.filename) {s : State n m}
    (h : (machine config).Reachable s) : s.traffic.Legible := by
  refine Machine.Guarded.invariant_of (J := fun s => s.traffic.Exchanged ∧ s.traffic.Stamped)
    (I := fun s => s.traffic.Legible) ?_ ?_ ?_ h
  · exact fun s hs => ⟨exchanged_of_reachable hs, stamped_of_reachable hnames hs⟩
  · rintro s rfl k filename
    exact hfiles filename
  · rintro s a t ⟨hx, hs⟩ - hlegible - hstep
    exact hlegible.move hx hs (move_of_step hstep)

/-- A request that has arrived can be treated. -/
theorem treatRequest_enabled {config : Config n m}
    (hfiles : ∀ filename, Legible (config.files filename))
    (hnames : ∀ i, ∀ request ∈ config.input i, hash ∉ request.filename) {s : State n m}
    (h : (machine config).Reachable s) {k : Fin m} {i : Fin n}
    (hmail : s.inFlight (.client i) (.server k) ≠ [])
    (hbusy : ((s.server k).thread i).busy = true) :
    ∃ t, step config s (.treatRequest k i) = some t := by
  obtain ⟨packet, rest, hmail⟩ := List.exists_cons_of_ne_nil hmail
  have hp : packet ∈ s.inFlight (.client i) (.server k) := by
    rw [hmail]
    exact List.mem_cons_self
  have htreat : ∃ answer, (s.server k).treatPacket i packet = some answer := by
    by_cases hread : packet.messageType = .clientRequestRead
    · obtain ⟨result, hresult⟩ := (legible_of_reachable hfiles hnames h k packet.msg).read
      exact ⟨_, treatPacket_read hread hresult⟩
    · by_cases hwrite : packet.messageType = .clientRequestWrite
      · obtain ⟨f, t, next, hm, hmsg⟩ := (exchanged_of_reachable h i).writeText k packet hp hwrite
        have hsplit := splitString_request ((stamped_of_reachable hnames h i).named f t next hm) i t
        obtain ⟨v, hv⟩ := treatPacket_write hwrite (hmsg ▸ hsplit)
        exact ⟨_, hv⟩
      · unfold Server.treatPacket
        split
        · exact ⟨_, rfl⟩
        · exact ⟨_, rfl⟩
        · next ht => exact absurd ht hread
        · next ht => exact absurd ht hwrite
        · exact ⟨_, rfl⟩
  obtain ⟨⟨v, out⟩, hanswer⟩ := htreat
  simp [step, hmail, hbusy, hanswer]

theorem treatServerPacket_enabled (config : Config n m) {s : State n m} {i : Fin n} {k : Fin m}
    (hmail : s.inFlight (.server k) (.client i) ≠ [])
    (hbusy : ((s.client i).serverThread k).busy = true) :
    ∃ t, step config s (.treatServerPacket i k) = some t := by
  obtain ⟨packet, rest, hmail⟩ := List.exists_cons_of_ne_nil hmail
  simp [step, hmail, hbusy]

/-- The steps of other kinds leave the answer to the enquiry alone. -/
theorem enquiry_of_quiet {config : Config n m} {s t : State n m} {a : Action n m}
    (ha : a.quiet = true) (h : step config s a = some t) (j : Fin n) :
    (t.client j).serverDoneEnquiryRequest = (s.client j).serverDoneEnquiryRequest := by
  have hset {i : Fin n} {c : Client n m}
      (hc : c.serverDoneEnquiryRequest = (s.client i).serverDoneEnquiryRequest) :
      (Function.update s.client i c j).serverDoneEnquiryRequest =
        (s.client j).serverDoneEnquiryRequest := by
    rw [Function.update_apply]
    split_ifs with hj
    · rw [hj, hc]
    · rfl
  cases a with
  | mainStep i | treatServerPacket i k | treatRequest k i => cases ha
  | sendCriticalSectionMessage i j message =>
    simp only [step] at h
    split_ifs at h
    obtain ⟨c, hc, rfl⟩ := Option.map_eq_some_iff.mp h
    obtain ⟨-, rfl⟩ := Client.increaseTimestamp_eq_some hc
    exact hset rfl
  | passServer i k =>
    simp only [step, passServer] at h
    split at h
    · split_ifs at h
      cases h
      exact hset rfl
    · cases h
      exact hset rfl
    · split_ifs at h
      · obtain ⟨c, hc, rfl⟩ := Option.map_eq_some_iff.mp h
        obtain ⟨-, rfl⟩ := Client.increaseTimestamp_eq_some hc
        exact hset rfl
      all_goals
        cases h
        exact hset rfl
    · cases h
  | handleClientPacket i j place =>
    simp only [step] at h
    split at h
    · cases h
    · split_ifs at h
      cases h
      exact hset rfl
  | passClient i j =>
    simp only [step, passClient] at h
    split at h
    · split_ifs at h
      all_goals
        cases h
        exact hset rfl
    · cases h
      exact hset rfl
    · cases h
    · cases h
  | passRequests k i =>
    simp only [step, passRequests] at h
    split at h
    · split_ifs at h
      cases h
      rfl
    · cases h
      rfl
    · split_ifs at h
      all_goals
        cases h
        rfl
    · cases h

/-- The enquiry of a client is under way, or its answer is, or the client knows the answer. -/
def Enquired (c : Client n m) (requests answers : Fin m → List Message) : Prop :=
  c.main = .enquiring → c.serverDoneEnquiryRequest = true ∨
    (∃ k, ∃ p ∈ requests k, p.messageType = .clientEnquiry) ∨
    ∃ k, ∃ p ∈ answers k, p.messageType = .serverReplyEnquiryClient

def Traffic.Enquired (v : Traffic n m) : Prop :=
  ∀ i, Cluster.Enquired (v.client i) (v.requests i) fun k => v.answers k i

theorem Enquired.same {c c' : Client n m}
    {requests answers requests' answers' : Fin m → List Message}
    (h : Enquired c requests answers) (hmain : c'.main = c.main)
    (hdone : c.serverDoneEnquiryRequest = true → c'.serverDoneEnquiryRequest = true)
    (hrequests : ∀ k, ∀ p ∈ requests k, p.messageType = .clientEnquiry → p ∈ requests' k ∨
      ∃ p ∈ answers' k, p.messageType = .serverReplyEnquiryClient)
    (hanswers : ∀ k, ∀ p ∈ answers k, p.messageType = .serverReplyEnquiryClient →
      p ∈ answers' k ∨ c'.serverDoneEnquiryRequest = true) :
    Enquired c' requests' answers' := by
  intro henquiring
  rcases h (hmain ▸ henquiring) with hd | ⟨k, p, hp, ht⟩ | ⟨k, p, hp, ht⟩
  · exact .inl (hdone hd)
  · rcases hrequests k p hp ht with hp' | hanswer
    · exact .inr (.inl ⟨k, p, hp', ht⟩)
    · exact .inr (.inr ⟨k, hanswer⟩)
  · rcases hanswers k p hp ht with hp' | hd
    · exact .inr (.inr ⟨k, p, hp', ht⟩)
    · exact .inl hd

theorem enquired_main {config : Config n m} {i : Fin n} {c c' : Client n m}
    {out : Fin m → List Message} {events : List (Event n m)} {requests answers : Fin m → List Message}
    (h : c.MainMove config i c' out events) :
    Enquired c' (fun k => requests k ++ out k) answers := by
  intro henquiring
  cases h with
  | enquire =>
    refine .inr (.inl ⟨config.enquiry i, ⟨.clientEnquiry, []⟩, ?_, rfl⟩)
    apply List.mem_append_right
    rw [Network.only_self]
    exact List.mem_singleton_self _
  | _ => cases henquiring

theorem answers_of_treatPacket {v v' : Server n} {i : Fin n} {packet : Message}
    {out : List Message} (h : v.treatPacket i packet = some (v', out)) :
    (∀ p ∈ out, p.answers = true) ∧ (packet.messageType = .clientEnquiry →
      ⟨.serverReplyEnquiryClient, []⟩ ∈ out) := by
  constructor
  · intro p hp
    rcases treatPacket_cases h with ⟨-, _, _, _, -, -, rfl⟩ | ⟨-, -, _, -, rfl⟩ | ⟨-, -, -, hout⟩
    · rw [List.mem_singleton.mp hp]
      rfl
    · rw [List.mem_singleton.mp hp]
      rfl
    · simp [Message.answers, hout p hp]
  · intro ht
    simp only [Server.treatPacket, ht] at h
    cases h
    exact List.mem_singleton_self _

theorem enquired_step {config : Config n m} {s t : State n m} {a : Action n m}
    (hs : s.traffic.Enquired) (h : step config s a = some t) : t.traffic.Enquired := by
  have hquiet (ha : a.quiet = true) : t.traffic.Enquired := by
    have hq := quiet_step ha h
    rw [traffic_of_quiet hq]
    intro i
    apply (hs i).same (hq.client i).main
    · intro hd
      exact (enquiry_of_quiet ha h i).trans hd
    · exact fun k p hp _ => .inl hp
    · exact fun k p hp _ => .inl hp
  cases a with
  | sendCriticalSectionMessage | passServer | handleClientPacket | passClient | passRequests =>
    exact hquiet rfl
  | mainStep i =>
    obtain ⟨⟨c, out, events⟩, hc, rfl⟩ := Option.map_eq_some_iff.mp h
    rw [traffic_main]
    intro j
    by_cases hj : j = i
    · subst hj
      simp only [Function.update_self]
      exact enquired_main (Client.mainMove_of_mainStep hc)
    · simp only [Function.update_of_ne hj]
      exact hs j
  | treatServerPacket i k =>
    simp only [step] at h
    split at h
    · cases h
    · next packet rest hmail =>
      split_ifs at h
      cases h
      rw [traffic_answer]
      intro j
      by_cases hj : j = i
      · subst hj
        simp only [Function.update_self]
        apply (hs j).same (Client.main_treatServerPacket _ k packet)
        · intro hd
          unfold Client.treatServerPacket
          split <;> simp [hd]
        · exact fun l p hp _ => .inl hp
        · intro l p hp ht
          simp only [update_update_apply, and_true]
          split_ifs with hl
          · subst hl
            change p ∈ (s.inFlight (.server l) (.client j)).filter Message.answers at hp
            rw [hmail] at hp
            rcases List.mem_cons.mp (List.mem_filter.mp hp).1 with rfl | hp'
            · right
              simp only [Client.treatServerPacket, ht]
            · exact .inl (List.mem_filter.mpr ⟨hp', (List.mem_filter.mp hp).2⟩)
          · exact .inl hp
      · simp only [Function.update_of_ne hj, update_update_apply, hj, and_false, if_false]
        exact hs j
  | treatRequest k i =>
    simp only [step] at h
    split at h
    · cases h
    · next packet rest hmail =>
      split_ifs at h
      obtain ⟨⟨v, out⟩, hv, rfl⟩ := Option.map_eq_some_iff.mp h
      obtain ⟨hout, hreply⟩ := answers_of_treatPacket hv
      rw [traffic_serve _ _ _ _ _ _ hout]
      intro j
      apply (hs j).same rfl id
      · intro l p hp ht
        simp only [Traffic.serve, update_update_apply]
        split_ifs with hjl hlj hlj
        · obtain ⟨rfl, rfl⟩ := hjl
          change p ∈ s.inFlight (.client j) (.server l) at hp
          rw [hmail] at hp
          rcases List.mem_cons.mp hp with rfl | hp'
          · exact .inr ⟨_, List.mem_append_right _ (hreply ht), rfl⟩
          · exact .inl hp'
        · exact absurd hjl.symm hlj
        · exact .inl hp
        · exact .inl hp
      · intro l p hp _
        left
        simp only [Traffic.serve, update_update_apply]
        split_ifs with hlj
        · obtain ⟨rfl, rfl⟩ := hlj
          exact List.mem_append_left _ hp
        · exact hp

theorem enquired_of_reachable {config : Config n m} {s : State n m}
    (h : (machine config).Reachable s) : s.traffic.Enquired := by
  refine h.invariant (I := fun s => s.traffic.Enquired) ?_ ?_
  · rintro s rfl i henquiring
    cases henquiring
  · exact fun s a t hs _ hstep => enquired_step hs hstep

/-- There is mail between client i and some server. -/
def State.Mail (s : State n m) (i : Fin n) : Prop :=
  ∃ k, s.inFlight (.client i) (.server k) ≠ [] ∨ s.inFlight (.server k) (.client i) ≠ []

theorem mail_of_request {s : State n m} {i : Fin n} {k : Fin m} {p : Message}
    (hp : p ∈ s.traffic.requests i k) : s.Mail i :=
  ⟨k, .inl (List.ne_nil_of_mem hp)⟩

theorem mail_of_answer {s : State n m} {i : Fin n} {k : Fin m} {p : Message}
    (hp : p ∈ s.traffic.answers k i) : s.Mail i :=
  ⟨k, .inr (List.ne_nil_of_mem (List.mem_of_mem_filter hp))⟩

theorem mail_of_tally {s : State n m} {i : Fin n} {k : Fin m} {request reply : MessageType}
    (h : tally request (s.traffic.requests i k) + tally reply (s.traffic.answers k i) = 1) :
    s.Mail i := by
  by_contra hmail
  have hrequest : tally request (s.traffic.requests i k) = 0 :=
    tally_eq_zero.mpr fun p hp => absurd (mail_of_request hp) hmail
  have hreply : tally reply (s.traffic.answers k i) = 0 :=
    tally_eq_zero.mpr fun p hp => absurd (mail_of_answer hp) hmail
  omega

theorem sendMessageToServer_isSome {c : Client n m} (hroom : c.timestamp + 1 < 2 ^ 31)
    (main : Main m) (k : Fin m) (messageType : MessageType) (msg : Bytes) :
    (c.sendMessageToServer main k messageType msg).isSome = true := by
  rw [Client.sendMessageToServer, Client.increaseTimestamp, if_pos hroom]
  rfl

/-- A main thread that cannot go on has no more requests, or waits for a server that has mail. -/
theorem mainStep_or_mail {config : Config n m} {s : State n m} (h : (machine config).Reachable s)
    {i : Fin n} (hroom : (s.client i).timestamp + 1 < 2 ^ 31) :
    ((s.client i).mainStep config i).isSome = true ∨
      (s.client i).main = .ready ∧ (s.client i).input = [] ∨ s.Mail i := by
  have hx := exchanged_of_reachable h i
  unfold Client.mainStep
  cases hm : (s.client i).main with
  | start =>
    left
    apply sendMessageToServer_isSome
    exact hroom
  | enquiring =>
    rcases enquired_of_reachable h i hm with hd | ⟨k, p, hp, -⟩ | ⟨k, p, hp, -⟩
    · change (s.client i).serverDoneEnquiryRequest = true at hd
      simp [hd]
    · exact .inr (.inr (mail_of_request hp))
    · exact .inr (.inr (mail_of_answer hp))
  | ready =>
    cases hinput : (s.client i).input with
    | nil => exact .inr (.inl ⟨rfl, rfl⟩)
    | cons request input => exact .inl rfl
  | requesting request =>
    cases request with
    | read filename k => exact .inl rfl
    | write filename =>
      left
      simp only [Client.enterCriticalSection, Client.increaseTimestamp, if_pos hroom]
      rfl
  | requestRead filename k =>
    left
    apply sendMessageToServer_isSome
    exact hroom
  | reading filename k =>
    cases hd : (s.client i).serverDoneReadRequest with
    | true => exact .inl rfl
    | false =>
      have howes : (s.client i).owesRead k = true := by simp [Client.owesRead, hm, hd]
      exact .inr (.inr (mail_of_tally ((hx.read k).trans (congrArg Bool.toNat howes))))
  | requestWrite filename timestamp next =>
    by_cases hnext : next < m
    · left
      simp only [hnext, dif_pos]
      apply sendMessageToServer_isSome
      exact hroom
    · by_cases hd : ∀ k, (s.client i).serverDoneWriteRequest k = true
      · left
        simp [hnext, Client.checkAllServersDoneWriteRequest, hd]
      · obtain ⟨k, hk⟩ := not_forall.mp hd
        have hlt : k.val < next := k.isLt.trans_le (Nat.le_of_not_lt hnext)
        have howes : (s.client i).owesWrite k = true := by simp [Client.owesWrite, hm, hk, hlt]
        exact .inr (.inr (mail_of_tally ((hx.write k).trans (congrArg Bool.toNat howes))))
  | finished filename next =>
    left
    by_cases hnext : next < m
    · simp only [hnext, dif_pos]
      apply sendMessageToServer_isSome
      exact hroom
    · simp [hnext]

/-- All threads that handle packets are at work. -/
structure State.Busy (s : State n m) : Prop where
  server : ∀ i k, ((s.client i).serverThread k).busy = true
  client : ∀ i j, ((s.client i).clientThread j).busy = true
  requests : ∀ k i, ((s.server k).thread i).busy = true

/-- While a client is not at its end, no thread has left or tells about the end. -/
theorem busy_of_unfinished {config : Config n m} {s : State n m} (h : Ended config s) {i : Fin n}
    (hi : s.bodies i ≠ config.nRequests) : s.Busy := by
  have hnot : ¬ s.AllKnown := fun hall => hi (h.allKnown hall i)
  constructor
  · intro j k
    by_contra hb
    exact hnot (.inl ⟨j, .inr (.inl ⟨k, Bool.not_eq_true _ ▸ hb⟩)⟩)
  · intro j l
    by_contra hb
    exact hnot (.inl ⟨j, .inr (.inr ⟨l, Bool.not_eq_true _ ▸ hb⟩)⟩)
  · intro k j
    by_contra hb
    exact hnot (.inr (.inl ⟨k, j, Bool.not_eq_true _ ▸ hb⟩))

theorem Counted.of_ready {config : Config n m} {c : Client n m} {done : ℕ}
    (h : Counted config c done) (hready : c.main = .ready) (hinput : c.input = []) :
    done = config.nRequests := by
  have hlines := h.lines
  have hbodies := h.bodies
  simp only [hinput, List.length_nil, Nat.add_zero] at hlines
  simp only [Client.pending, hready, Bool.toNat_false, Nat.add_zero] at hbodies
  exact hbodies.trans hlines

end DistributedME.Cluster
