import DistributedME.Node.Scanning

/-! The file with the requests of a client: how it is generated, and how it is read and executed
line by line. -/
namespace DistributedME.InputFile
open Library Node

def MAX_BUFFER_SIZE : ℕ := 8192
def MAX_FILENAME_LENGTH : ℕ := 256

/-- "read", "write" and "enquiry". -/
def textRead : Bytes := [114, 101, 97, 100]
def textWrite : Bytes := [119, 114, 105, 116, 101]
def textEnquiry : Bytes := [101, 110, 113, 117, 105, 114, 121]

/-- The server_id of a request to write is not used. -/
inductive Request where
  | read (filename : Bytes) (serverId : Int32)
  | write (filename : Bytes)
  deriving DecidableEq, Repr

/-- The name of a hosted file. -/
structure FileName where
  name : Bytes
  word : IsWord name
  zero : 0 ∉ name
  length : name.length < MAX_FILENAME_LENGTH

/-- What the generator is given, apart from the number of requests. -/
structure Hosted where
  listFiles : List FileName
  ne_nil : listFiles ≠ []
  nServers : ℕ
  pos : 0 < nServers
  range : nServers < 2 ^ 31

namespace Hosted
variable (hosted : Hosted)

def names : List Bytes := hosted.listFiles.map FileName.name

/-- The file with the index that a random number gives. -/
def randomFile (random : ℕ) : FileName :=
  hosted.listFiles.get ⟨random % hosted.listFiles.length,
    Nat.mod_lt _ (List.length_pos_iff.mpr hosted.ne_nil)⟩

end Hosted

def requestTypes : List Bytes := [textRead, textWrite]

/-- No more than what the buffer has room for, with its zero at the end. -/
def snprintf (size : ℕ) (text : Bytes) : Bytes := text.take (size - 1)

/-- The loop of _generateRandomInputFile, which gives what is written. The numbers are those that
the calls of rand return. A request is of the other type than the one that was chosen. -/
def generateRandomInputFile (hosted : Hosted) (rand : ℕ → ℕ) : (nRequests calls : ℕ) → Bytes
  | 0, _ => []
  | nRequests + 1, calls =>
    let requestType := requestTypes.get ⟨rand calls % 2, Nat.mod_lt _ (by decide)⟩
    let requestFile := (hosted.randomFile (rand (calls + 1))).name
    if requestType ≠ textRead then
      let serverId := Int32.ofNat (rand (calls + 2) % hosted.nServers)
      snprintf 100 (textRead ++ space :: (cString requestFile ++ space ::
          (Node.toString serverId ++ [newline]))) ++
        generateRandomInputFile hosted rand nRequests (calls + 3)
    else
      snprintf 100 (textWrite ++ space :: (cString requestFile ++ [newline])) ++
        generateRandomInputFile hosted rand nRequests (calls + 2)

/-- The local variables of requestServersFromInputFile. There is something in them before
anything is stored. -/
structure Variables where
  requestType : Bytes
  filename : Bytes
  serverId : Int32

/-- The number of lines, the requests that were executed, the servers that were enquired and the
lines at which the client told that it was done are auxiliary. -/
structure Client where
  currentRequest : Option Request
  nRequestedRequests : ℕ
  requestAll : Bool
  lines : ℕ
  executed : List Request
  enquired : List Int32
  announced : List ℕ

namespace Client

def initial : Client where
  currentRequest := none
  nRequestedRequests := 0
  requestAll := false
  lines := 0
  executed := []
  enquired := []
  announced := []

/-- There is no value where current_request has never been written. -/
def enterCriticalSection (c : Client) (nRequests : ℕ) : Option Client :=
  c.currentRequest.map fun request =>
    { c with
      executed := c.executed ++ [request]
      announced :=
        if c.nRequestedRequests = nRequests then c.announced ++ [c.lines] else c.announced }

/-- The algorithm of the file lets the client enter. There is none for a name that is not
listed, which is not defined. -/
def requestCriticalSection (c : Client) (names : List Bytes) (nRequests : ℕ) (filename : Bytes) :
    Option Client :=
  let c := { c with nRequestedRequests := c.nRequestedRequests + 1 }
  if filename ∈ names then c.enterCriticalSection nRequests else none

end Client

def scanType : Conversion Variables := .s 10 fun v requestType => { v with requestType }
def scanFilename : Conversion Variables :=
  .s MAX_FILENAME_LENGTH fun v filename => { v with filename }
def scanServerId : Conversion Variables := .d fun v serverId => { v with serverId }

section reader
variable (names : List Bytes) (nRequests : ℕ)

/-- The branches for the types of requests. -/
def request (buffer : Bytes) (v : Variables) (c : Client) : Option (Variables × Client) :=
  if v.requestType = textEnquiry then
    (sscanf [scanType, scanServerId] buffer v).map fun v =>
      (v, { c with enquired := c.enquired ++ [v.serverId] })
  else if v.requestType = textRead then
    (sscanf [scanType, scanFilename, scanServerId] buffer v).bind fun v =>
      let c := { c with currentRequest := some (.read v.filename v.serverId) }
      (c.requestCriticalSection names nRequests v.filename).map (v, ·)
  else if v.requestType = textWrite then
    (sscanf [scanType, scanFilename] buffer v).bind fun v =>
      let c := { c with currentRequest := some (.write v.filename) }
      (c.requestCriticalSection names nRequests v.filename).map (v, ·)
  else some (v, c)

/-- One pass of the loop. -/
def requestLine (chunk : Bytes) (v : Variables) (c : Client) : Option (Variables × Client) :=
  let c := { c with lines := c.lines + 1 }
  let buffer := cString chunk
  if buffer.length ≤ 1 then some (v, c)
  else (sscanf [scanType] buffer v).bind fun v => request names nRequests buffer v c

def requestLines (v : Variables) (c : Client) : List Bytes → Option Client
  | [] => some { c with requestAll := true }
  | chunk :: chunks =>
    (requestLine names nRequests chunk v c).bind fun s => requestLines s.1 s.2 chunks

/-- A file that cannot be opened is closed all the same, which is not defined. -/
def requestServersFromInputFile (file : Option Bytes) (v : Variables) : Option Client :=
  file.bind fun content =>
    requestLines names nRequests v .initial (fgetsAll MAX_BUFFER_SIZE (by decide) content)

end reader

/-- The line of a request, without its newline. -/
def Request.line : Request → Bytes
  | .read filename serverId => textRead ++ space :: (filename ++ space :: toString serverId)
  | .write filename => textWrite ++ space :: filename

/-- What is in request_str. -/
def Request.str (request : Request) : Bytes := snprintf 100 (request.line ++ [newline])

/-- The server_id after a request. -/
def Request.kept (serverId : Int32) : Request → Int32
  | .read _ serverId => serverId
  | .write _ => serverId

namespace Hosted
variable (hosted : Hosted)

/-- The requests that the random numbers choose. -/
def chosen (rand : ℕ → ℕ) : (nRequests calls : ℕ) → List Request
  | 0, _ => []
  | nRequests + 1, calls =>
    let filename := (hosted.randomFile (rand (calls + 1))).name
    if rand calls % 2 = 0 then .write filename :: chosen rand nRequests (calls + 2)
    else
      .read filename (Int32.ofNat (rand (calls + 2) % hosted.nServers)) ::
        chosen rand nRequests (calls + 3)

/-- A read of a listed file from one of the servers, or a write of a listed file. -/
def Proper : Request → Prop
  | .read filename serverId =>
    filename ∈ hosted.names ∧ 0 ≤ serverId.toInt ∧ serverId.toInt < hosted.nServers
  | .write filename => filename ∈ hosted.names

/-- The requests are executed as they were chosen, and the client is done at the last line. -/
def Executed (rand : ℕ → ℕ) (nRequests : ℕ) (v : Variables) : Prop :=
  ∃ c, requestServersFromInputFile hosted.names nRequests
      (some (generateRandomInputFile hosted rand nRequests 0)) v = some c ∧
    c.executed = hosted.chosen rand nRequests 0 ∧ (∀ request ∈ c.executed, hosted.Proper request) ∧
    c.nRequestedRequests = nRequests ∧ c.announced = if nRequests = 0 then [] else [c.lines]

end Hosted

/-- Every line fits into request_str, where the newline of the last one may be missing. A last
line that is cut just behind the name is read with the server of the read before it. -/
def Fits : Int32 → List Request → Prop
  | _, [] => True
  | serverId, [request] => request.line.length ≤ 99 ∨
    ∃ filename, request = .read filename serverId ∧ 93 ≤ filename.length ∧ filename.length ≤ 94
  | serverId, request :: request' :: requests =>
    request.line.length < 99 ∧ Fits (request.kept serverId) (request' :: requests)

namespace Request

theorem str_of_lt {request : Request} (h : request.line.length < 99) :
    request.str = request.line ++ [newline] :=
  List.take_of_length_le (by rw [List.length_append, List.length_singleton]; omega)

theorem str_of_le {request : Request} (h : 99 ≤ request.line.length) :
    request.str = request.line.take 99 :=
  List.take_append_of_le_length h

end Request

namespace Hosted
variable {hosted : Hosted}

theorem mem_names (random : ℕ) : (hosted.randomFile random).name ∈ hosted.names :=
  List.mem_map_of_mem (List.get_mem ..)

theorem exists_file {filename : Bytes} (h : filename ∈ hosted.names) :
    ∃ file : FileName, file.name = filename := by
  obtain ⟨file, -, hfile⟩ := List.mem_map.mp h
  exact ⟨file, hfile⟩

theorem chosen_proper (rand : ℕ → ℕ) (nRequests calls : ℕ) :
    ∀ request ∈ hosted.chosen rand nRequests calls, hosted.Proper request := by
  induction nRequests generalizing calls with
  | zero => exact fun _ h => absurd h List.not_mem_nil
  | succ nRequests ih =>
    have hlt := Nat.mod_lt (rand (calls + 2)) hosted.pos
    have hrange := hosted.range
    rw [chosen]
    split_ifs
    · exact List.forall_mem_cons.mpr ⟨mem_names _, ih _⟩
    · refine List.forall_mem_cons.mpr ⟨⟨mem_names _, ?_⟩, ih _⟩
      rw [Int32.toInt_ofNat_of_lt (by omega)]
      omega

theorem length_chosen (rand : ℕ → ℕ) (nRequests calls : ℕ) :
    (hosted.chosen rand nRequests calls).length = nRequests := by
  induction nRequests generalizing calls with
  | zero => rfl
  | succ nRequests ih =>
    rw [chosen]
    split_ifs <;> exact congrArg Nat.succ (ih _)

/-- The file consists of the texts of the requests. -/
theorem generateRandomInputFile_eq (rand : ℕ → ℕ) (nRequests calls : ℕ) :
    generateRandomInputFile hosted rand nRequests calls =
      ((hosted.chosen rand nRequests calls).map Request.str).flatten := by
  induction nRequests generalizing calls with
  | zero => rfl
  | succ nRequests ih =>
    have htype : ∀ i : Fin requestTypes.length, requestTypes.get i = textRead ↔ i.val = 0 := by
      decide
    rw [generateRandomInputFile, chosen, cString_eq (hosted.randomFile (rand (calls + 1))).zero]
    simp only [ne_eq, htype, ite_not]
    split_ifs
    · simp [Request.str, Request.line, ih]
    · simp [Request.str, Request.line, ih]

end Hosted

namespace Client
variable (c : Client) (nRequests : ℕ)

/-- What a line with the request does. -/
def execute (request : Request) : Client :=
  { c with
    currentRequest := some request
    nRequestedRequests := c.nRequestedRequests + 1
    lines := c.lines + 1
    executed := c.executed ++ [request]
    announced :=
      if c.nRequestedRequests + 1 = nRequests then c.announced ++ [c.lines + 1] else c.announced }

def executeAll (requests : List Request) : Client :=
  requests.foldl (fun c request => c.execute nRequests request) c

@[simp] theorem executeAll_cons (request : Request) (requests : List Request) :
    c.executeAll nRequests (request :: requests) =
      (c.execute nRequests request).executeAll nRequests requests := rfl

theorem executeAll_counts (requests : List Request) :
    (c.executeAll nRequests requests).executed = c.executed ++ requests ∧
      (c.executeAll nRequests requests).nRequestedRequests =
        c.nRequestedRequests + requests.length ∧
      (c.executeAll nRequests requests).lines = c.lines + requests.length := by
  induction requests generalizing c with
  | nil => exact ⟨(List.append_nil _).symm, rfl, rfl⟩
  | cons request requests ih =>
    obtain ⟨hexecuted, hcount, hlines⟩ := ih (c.execute nRequests request)
    rw [executeAll_cons, hexecuted, hcount, hlines]
    simp [execute, Nat.add_assoc, Nat.add_comm 1]

/-- The client is not done before the last request. -/
theorem announced_executeAll (requests : List Request)
    (h : c.nRequestedRequests + requests.length < nRequests) :
    (c.executeAll nRequests requests).announced = c.announced := by
  induction requests generalizing c with
  | nil => rfl
  | cons request requests ih =>
    rw [List.length_cons] at h
    rw [executeAll_cons, ih (c.execute nRequests request) (by simp only [execute]; omega)]
    exact if_neg (by omega)

theorem announced_executeAll_last {requests : List Request} (hne : requests ≠ [])
    (h : c.nRequestedRequests + requests.length = nRequests) :
    (c.executeAll nRequests requests).announced =
      c.announced ++ [(c.executeAll nRequests requests).lines] := by
  obtain ⟨requests, request, rfl⟩ := List.eq_nil_or_concat' requests |>.resolve_left hne
  rw [List.length_append, List.length_singleton] at h
  have hbefore := c.announced_executeAll nRequests requests (by omega)
  have hcount := (c.executeAll_counts nRequests requests).2.1
  have hlast : c.executeAll nRequests (requests ++ [request]) =
      (c.executeAll nRequests requests).execute nRequests request := List.foldl_append
  rw [hlast, execute, hbefore]
  exact if_pos (by omega)

end Client

theorem isWord_textRead : IsWord textRead := isWord_of_all (by decide) (by decide)

theorem isWord_textWrite : IsWord textWrite := isWord_of_all (by decide) (by decide)

section lines
variable (names : List Bytes) (nRequests : ℕ) {v : Variables} (c : Client)

/-- The type of a request is scanned first by itself, and then with the rest of the line. -/
theorem requestLine_type {word rest : Bytes} (hword : IsWord word) (hlen : word.length < 10)
    (hzero : 0 ∉ word ++ space :: rest) (hrest : rest ≠ []) :
    requestLine names nRequests (word ++ space :: rest) v c =
      request names nRequests (word ++ space :: rest) { v with requestType := word }
        { c with lines := c.lines + 1 } := by
  have htype := sscanf_word hword (ends_space rest) hlen
    (fun v requestType => { v with requestType }) [] v
  have hpos := List.length_pos_iff.mpr hrest
  rw [requestLine, cString_eq hzero]
  rw [if_neg (by rw [List.length_append, List.length_cons]; omega), scanType, htype]
  rfl

theorem sscanf_type {word rest : Bytes} (hword : IsWord word) (hlen : word.length < 10)
    (conversions : List (Conversion Variables)) :
    sscanf (scanType :: conversions) (word ++ space :: rest) v =
      sscanf conversions rest { v with requestType := word } :=
  (sscanf_word hword (ends_space _) hlen ..).trans (sscanf_space ..)

theorem sscanf_filename (file : FileName) {rest : Bytes} (hrest : Ends rest)
    (conversions : List (Conversion Variables)) :
    sscanf (scanFilename :: conversions) (file.name ++ rest) v =
      sscanf conversions rest { v with filename := file.name } :=
  sscanf_word file.word hrest file.length ..

theorem FileName.notMem_buffer (file : FileName) {word rest : Bytes} (hword : 0 ∉ word)
    (hrest : 0 ∉ rest) : 0 ∉ word ++ space :: (file.name ++ rest) := by
  simp only [List.mem_append, List.mem_cons, not_or]
  exact ⟨hword, by decide, file.zero, hrest⟩

/-- How a line is read up to the name of the file, and then the server. -/
theorem requestLine_read (file : FileName) {rest : Bytes} {serverId : Int32} (hrest : Ends rest)
    (hzero : 0 ∉ rest) (hserver : sscanf [scanServerId] rest ⟨textRead, file.name, v.serverId⟩ =
      some ⟨textRead, file.name, serverId⟩) :
    requestLine names nRequests (textRead ++ space :: (file.name ++ rest)) v c =
      if file.name ∈ names then
        some (⟨textRead, file.name, serverId⟩, c.execute nRequests (.read file.name serverId))
      else none := by
  have hne : textRead ≠ textEnquiry := by decide
  rw [requestLine_type names nRequests c isWord_textRead (by decide)
    (file.notMem_buffer (by decide) hzero) (by simp [file.word.ne_nil])]
  simp only [request, hne, if_false, if_true]
  rw [sscanf_type isWord_textRead (by decide), sscanf_filename file hrest, hserver,
    Option.bind_some]
  simp only [Client.requestCriticalSection]
  split_ifs <;> rfl

theorem requestLine_write (file : FileName) {rest : Bytes} (hrest : Ends rest) (hzero : 0 ∉ rest) :
    requestLine names nRequests (textWrite ++ space :: (file.name ++ rest)) v c =
      if file.name ∈ names then
        some (⟨textWrite, file.name, v.serverId⟩, c.execute nRequests (.write file.name))
      else none := by
  have hne : textWrite ≠ textEnquiry ∧ textWrite ≠ textRead := by decide
  rw [requestLine_type names nRequests c isWord_textWrite (by decide)
    (file.notMem_buffer (by decide) hzero) (by simp [file.word.ne_nil])]
  simp only [request, hne, if_false, if_true]
  rw [sscanf_type isWord_textWrite (by decide), sscanf_filename file hrest, sscanf,
    Option.bind_some]
  simp only [Client.requestCriticalSection]
  split_ifs <;> rfl

end lines

/-- The beginning of a name. -/
def FileName.take (file : FileName) (count : ℕ) (h : 0 < count) : FileName where
  name := file.name.take count
  word :=
    ⟨fun hnil => (List.take_eq_nil_iff.mp hnil).elim (Nat.ne_of_gt h) file.word.ne_nil,
      fun b hb => file.word.isSpace b (List.mem_of_mem_take hb)⟩
  zero hmem := file.zero (List.mem_of_mem_take hmem)
  length := (List.length_take_le' count file.name).trans_lt file.length

def Request.filename : Request → Bytes
  | .read filename _ => filename
  | .write filename => filename

section proper
variable {hosted : Hosted} (nRequests : ℕ) (v : Variables) (c : Client) {request : Request}

theorem Hosted.Proper.mem (h : hosted.Proper request) : request.filename ∈ hosted.names := by
  cases request with
  | read filename serverId => exact h.1
  | write filename => exact h

theorem Hosted.Proper.notMem (h : hosted.Proper request) {b : UInt8} (hb : b = newline ∨ b = 0) :
    b ∉ request.line := by
  obtain ⟨file, hfile⟩ := exists_file h.mem
  have hname : b ∉ request.filename := by
    rw [← hfile]
    rcases hb with rfl | rfl
    · exact file.word.newline_notMem
    · exact file.zero
  have htexts : b ∉ textRead ∧ b ∉ textWrite ∧ b ≠ space := by
    rcases hb with rfl | rfl <;> decide
  cases request with
  | read filename serverId =>
    simp only [Request.line, List.mem_append, List.mem_cons, not_or]
    exact ⟨htexts.1, htexts.2.2, hname, htexts.2.2, ending_notMem_toString hb serverId⟩
  | write filename =>
    simp only [Request.line, List.mem_append, List.mem_cons, not_or]
    exact ⟨htexts.2.1, htexts.2.2, hname⟩

/-- A line that is there as a whole, with or without its newline. -/
theorem requestLine_line (h : hosted.Proper request) {ending : Bytes}
    (hending : ending = [newline] ∨ ending = []) :
    ∃ w, requestLine hosted.names nRequests (request.line ++ ending) v c =
        some (w, c.execute nRequests request) ∧ w.serverId = request.kept v.serverId := by
  obtain ⟨file, hfile⟩ := Hosted.exists_file h.mem
  obtain ⟨hends, hstops, hzero⟩ : Ends ending ∧ Stops ending ∧ 0 ∉ ending := by
    rcases hending with rfl | rfl
    · exact ⟨ends_newline [], stops_newline [], by decide⟩
    · exact ⟨ends_nil, stops_nil, List.not_mem_nil⟩
  have hmem := h.mem
  rw [← hfile] at hmem
  cases request with
  | read filename serverId =>
    obtain rfl : file.name = filename := hfile
    refine ⟨⟨textRead, file.name, serverId⟩, ?_, rfl⟩
    have hrest : 0 ∉ space :: (Node.toString serverId ++ ending) := by
      simp only [List.mem_append, List.mem_cons, not_or]
      exact ⟨by decide, ending_notMem_toString (.inr rfl) serverId, hzero⟩
    have hserver : sscanf [scanServerId] (space :: (Node.toString serverId ++ ending))
        ⟨textRead, file.name, v.serverId⟩ = some ⟨textRead, file.name, serverId⟩ :=
      (sscanf_space ..).trans (sscanf_int (scanInt_toString serverId hstops) ..)
    have hline := requestLine_read hosted.names nRequests c file
      (ends_space _) hrest hserver
    rw [if_pos hmem] at hline
    simpa [Request.line] using hline
  | write filename =>
    obtain rfl : file.name = filename := hfile
    refine ⟨⟨textWrite, file.name, v.serverId⟩, ?_, rfl⟩
    have hline := requestLine_write hosted.names nRequests (v := v) c file hends hzero
    rw [if_pos hmem] at hline
    simpa [Request.line] using hline

theorem FileName.take_ne (file : FileName) {count : ℕ} (h : count < file.name.length) :
    file.name.take count ≠ file.name := by
  intro heq
  have := congrArg List.length heq
  rw [List.length_take] at this
  omega

/-- The chunk is taken for a request. There is no value if the file is not listed. -/
def ReadAs (names : List Bytes) (nRequests : ℕ) (v : Variables) (c : Client) (chunk : Bytes)
    (request : Request) : Prop :=
  ∃ w, requestLine names nRequests chunk v c =
    if request.filename ∈ names then some (w, c.execute nRequests request) else none

section cut
variable {names : List Bytes} {nRequests : ℕ} {v : Variables} {c : Client} (file : FileName)
  {serverId : Int32}

theorem take_line_write : (Request.write file.name).line.take 99 =
    textWrite ++ space :: (file.name.take 93 ++ []) :=
  congrArg (textWrite ++ space :: ·) (List.append_nil _).symm

theorem take_line_read : (Request.read file.name serverId).line.take 99 =
    textRead ++ space :: (file.name.take 94 ++
      (space :: Node.toString serverId).take (94 - file.name.length)) :=
  congrArg (textRead ++ space :: ·) List.take_append

theorem readAs_write_cut :
    ReadAs names nRequests v c ((Request.write file.name).line.take 99)
      (.write (file.name.take 93)) := by
  rw [take_line_write]
  exact ⟨_, requestLine_write names nRequests c (file.take 93 (by decide)) ends_nil
    List.not_mem_nil⟩

/-- The name is cut. -/
theorem readAs_read_cut (h : 94 < file.name.length) :
    ReadAs names nRequests v c ((Request.read file.name serverId).line.take 99)
      (.read (file.name.take 94) v.serverId) := by
  rw [take_line_read, Nat.sub_eq_zero_of_le h.le, List.take_zero]
  exact ⟨_, requestLine_read names nRequests c (file.take 94 (by decide)) ends_nil
    List.not_mem_nil rfl⟩

/-- The server is not there. -/
theorem readAs_read_last (hmore : 93 ≤ file.name.length) (hless : file.name.length ≤ 94) :
    ReadAs names nRequests v c ((Request.read file.name serverId).line.take 99)
      (.read file.name v.serverId) := by
  rw [take_line_read, List.take_of_length_le hless]
  obtain hrest | hrest : 94 - file.name.length = 0 ∨ 94 - file.name.length = 1 := by omega
  · rw [hrest, List.take_zero]
    exact ⟨_, requestLine_read names nRequests c file ends_nil List.not_mem_nil rfl⟩
  · rw [hrest, List.take_succ_cons, List.take_zero]
    exact ⟨_, requestLine_read names nRequests c file (ends_space _) (by decide) rfl⟩

/-- The server is cut. -/
theorem readAs_read_server (hserver : 0 ≤ serverId.toInt) (hless : file.name.length < 93)
    (hmore : 93 < file.name.length + (Node.toString serverId).length) :
    ∃ other ≠ serverId, ReadAs names nRequests v c
      ((Request.read file.name serverId).line.take 99) (.read file.name other) := by
  obtain ⟨count, hcount⟩ := Nat.exists_eq_add_one_of_ne_zero
    (show 94 - file.name.length ≠ 0 by omega)
  obtain ⟨other, hother, hscan⟩ := scanInt_take hserver (show 0 < count by omega) (by omega)
  have hzero : 0 ∉ space :: (Node.toString serverId).take count := by
    refine List.not_mem_cons_of_ne_of_not_mem (by decide) fun hmem => ?_
    exact ending_notMem_toString (.inr rfl) serverId (List.mem_of_mem_take hmem)
  refine ⟨other, hother, ?_⟩
  rw [take_line_read, List.take_of_length_le (by omega), hcount, List.take_succ_cons]
  exact ⟨_, requestLine_read names nRequests c file (ends_space _) hzero
    ((sscanf_space ..).trans (sscanf_int hscan ..))⟩

end cut

/-- A line that is cut is read as another request, or as the same one by chance. -/
theorem readAs_cut (h : hosted.Proper request) (hlen : 99 < request.line.length) :
    ∃ cut, ReadAs hosted.names nRequests v c (request.line.take 99) cut ∧
      (cut = request ↔ ∃ filename, request = .read filename v.serverId ∧
        93 ≤ filename.length ∧ filename.length ≤ 94) := by
  obtain ⟨file, hfile⟩ := Hosted.exists_file h.mem
  cases request with
  | write filename =>
    obtain rfl : file.name = filename := hfile
    have hlong : 93 < file.name.length := by
      simp only [Request.line, List.length_append, List.length_cons] at hlen
      have : textWrite.length = 5 := rfl
      omega
    refine ⟨_, readAs_write_cut file, iff_of_false (fun heq => ?_) ?_⟩
    · exact file.take_ne hlong (Request.write.inj heq)
    · rintro ⟨_, heq, -⟩
      cases heq
  | read filename serverId =>
    obtain rfl : file.name = filename := hfile
    have hdigits : 93 < file.name.length + (Node.toString serverId).length := by
      simp only [Request.line, List.length_append, List.length_cons] at hlen
      have : textRead.length = 4 := rfl
      omega
    rcases Nat.lt_or_ge 94 file.name.length with hlong | hshort
    · refine ⟨_, readAs_read_cut file hlong, iff_of_false (fun heq => ?_) ?_⟩
      · exact file.take_ne hlong (Request.read.inj heq).1
      · rintro ⟨_, heq, -, hle⟩
        rw [← (Request.read.inj heq).1] at hle
        omega
    · rcases Nat.lt_or_ge file.name.length 93 with hless | hmore
      · obtain ⟨other, hother, hread⟩ := readAs_read_server file h.2.1 hless hdigits
        refine ⟨_, hread, iff_of_false (fun heq => hother (Request.read.inj heq).2) ?_⟩
        rintro ⟨_, heq, hle, -⟩
        rw [← (Request.read.inj heq).1] at hle
        omega
      · refine ⟨_, readAs_read_last file hmore hshort,
          fun heq => ⟨file.name, heq.symm, hmore, hshort⟩, ?_⟩
        rintro ⟨_, heq, -⟩
        rw [heq, (Request.read.inj heq).1]

/-- A last line. -/
theorem readAs_last (h : hosted.Proper request) :
    ∃ cut, ReadAs hosted.names nRequests v c request.str cut ∧
      (cut = request ↔ Fits v.serverId [request]) := by
  rcases Nat.lt_trichotomy request.line.length 99 with hlt | heq | hgt
  · obtain ⟨w, hw, -⟩ := requestLine_line nRequests v c h (.inl rfl)
    refine ⟨request, ⟨w, ?_⟩, iff_of_true rfl (.inl hlt.le)⟩
    rw [Request.str_of_lt hlt, hw, if_pos h.mem]
  · obtain ⟨w, hw, -⟩ := requestLine_line nRequests v c h (.inr rfl)
    refine ⟨request, ⟨w, ?_⟩, iff_of_true rfl (.inl heq.le)⟩
    rw [List.append_nil] at hw
    rw [Request.str_of_le heq.ge, List.take_of_length_le heq.le, hw, if_pos h.mem]
  · obtain ⟨cut, hcut, hiff⟩ := readAs_cut nRequests v c h hgt
    refine ⟨cut, ?_, hiff.trans (or_iff_right (Nat.not_le.mpr hgt)).symm⟩
    rwa [Request.str_of_le hgt.le]

end proper

/-- What fgets gives of the texts of the requests. -/
def chunks (requests : List Request) : List Bytes :=
  fgetsAll MAX_BUFFER_SIZE (by decide) (requests.map Request.str).flatten

section chunks
variable {hosted : Hosted} {request : Request} {requests : List Request}

theorem notMem_str (h : hosted.Proper request) (hlen : 99 ≤ request.line.length) :
    newline ∉ request.str := by
  rw [Request.str_of_le hlen]
  exact fun hmem => h.notMem (.inl rfl) (List.mem_of_mem_take hmem)

theorem length_str (request : Request) : request.str.length ≤ 99 := List.length_take_le ..

theorem isPiece_str (h : hosted.Proper request) :
    Lines.IsPiece newline (MAX_BUFFER_SIZE - 1) request.str := by
  refine ⟨(length_str request).trans (by decide), ?_⟩
  rcases Nat.lt_or_ge request.line.length 99 with hlt | hge
  · exact .inr ⟨request.line, h.notMem (.inl rfl), Request.str_of_lt hlt⟩
  · exact .inl (notMem_str h hge)

theorem chunks_cons (h : hosted.Proper request) (hlen : request.line.length < 99) :
    chunks (request :: requests) = (request.line ++ [newline]) :: chunks requests := by
  have hroom : request.line.length < MAX_BUFFER_SIZE - 1 := hlen.trans (by decide)
  rw [chunks, List.map_cons, List.flatten_cons, Request.str_of_lt hlen, List.append_assoc]
  exact Lines.chunks_line_append (h.notMem (.inl rfl)) hroom _

theorem chunks_singleton (h : hosted.Proper request) : chunks [request] = [request.str] := by
  rcases Nat.lt_or_ge request.line.length 99 with hlt | hge
  · rw [chunks_cons h hlt, Request.str_of_lt hlt]
    exact congrArg _ (Lines.chunks_nil)
  · have hne : request.str ≠ [] := by
      rw [Request.str_of_le hge, Ne, List.take_eq_nil_iff, not_or]
      exact ⟨by decide, fun hnil => by simp [hnil] at hge⟩
    rw [chunks, List.map_singleton, List.flatten_singleton]
    exact Lines.chunks_of_notMem (notMem_str h hge) hne ((length_str request).trans (by decide))

/-- A line without its newline is joined with the next one. -/
theorem length_chunks_lt {request' : Request}
    (h : ∀ request'' ∈ request :: request' :: requests, hosted.Proper request'')
    (hlen : 99 ≤ request.line.length) :
    (chunks (request :: request' :: requests)).length <
      (request :: request' :: requests).length := by
  simp only [List.forall_mem_cons] at h
  obtain ⟨hfirst, hsecond, hrest⟩ := h
  have hsep := notMem_str hfirst hlen
  have hjoined : Lines.IsPiece newline (MAX_BUFFER_SIZE - 1) (request.str ++ request'.str) := by
    have hroom : 99 + 99 ≤ MAX_BUFFER_SIZE - 1 := by decide
    have := length_str request
    have := length_str request'
    exact (isPiece_str hsecond).append hsep (by rw [List.length_append]; omega)
  have hlt : (chunks (request :: request' :: requests)).length <
      (request.str :: request'.str :: requests.map Request.str).length :=
    Lines.length_chunks_lt hjoined
      (List.forall_mem_map.mpr fun request'' hmem => isPiece_str (hrest request'' hmem))
  simpa using hlt

end chunks

namespace Client
variable {names : List Bytes} {nRequests : ℕ} {c d : Client}

theorem length_executed {filename : Bytes}
    (h : c.requestCriticalSection names nRequests filename = some d) :
    d.executed.length = c.executed.length + 1 := by
  unfold requestCriticalSection at h
  split_ifs at h
  obtain ⟨request, -, rfl⟩ := Option.map_eq_some_iff.mp h
  exact List.length_append

end Client

section executed
variable {names : List Bytes} {nRequests : ℕ}

/-- A line gives one request at most. -/
theorem requestLine_executed {chunk : Bytes} {v w : Variables} {c d : Client}
    (h : requestLine names nRequests chunk v c = some (w, d)) :
    d.executed.length ≤ c.executed.length + 1 := by
  unfold requestLine at h
  dsimp only at h
  split_ifs at h
  · cases h
    exact Nat.le_succ _
  obtain ⟨v', -, h⟩ := Option.bind_eq_some_iff.mp h
  unfold request at h
  split_ifs at h
  · obtain ⟨_, -, h⟩ := Option.map_eq_some_iff.mp h
    cases h
    exact Nat.le_succ _
  · obtain ⟨_, -, h⟩ := Option.bind_eq_some_iff.mp h
    obtain ⟨d', hd, h⟩ := Option.map_eq_some_iff.mp h
    cases h
    exact (Client.length_executed hd).le
  · obtain ⟨_, -, h⟩ := Option.bind_eq_some_iff.mp h
    obtain ⟨d', hd, h⟩ := Option.map_eq_some_iff.mp h
    cases h
    exact (Client.length_executed hd).le
  · cases h
    exact Nat.le_succ _

theorem requestLines_executed {chunks : List Bytes} {v : Variables} {c d : Client}
    (h : requestLines names nRequests v c chunks = some d) :
    d.executed.length ≤ c.executed.length + chunks.length := by
  induction chunks generalizing v c with
  | nil =>
    cases h
    exact le_rfl
  | cons chunk chunks ih =>
    obtain ⟨⟨w, c'⟩, hline, h⟩ := Option.bind_eq_some_iff.mp h
    have hrest : d.executed.length ≤ c'.executed.length + chunks.length := ih h
    have := requestLine_executed hline
    rw [List.length_cons]
    omega

end executed

section run
variable {hosted : Hosted} {nRequests : ℕ}

/-- All lines are executed as they were chosen. -/
theorem requestLines_of_fits {requests : List Request} {v : Variables} (c : Client)
    (hproper : ∀ request ∈ requests, hosted.Proper request) (h : Fits v.serverId requests) :
    requestLines hosted.names nRequests v c (chunks requests) =
      some { c.executeAll nRequests requests with requestAll := true } := by
  induction requests generalizing v c with
  | nil => rw [chunks, List.map_nil, List.flatten_nil, fgetsAll, Lines.chunks_nil]; rfl
  | cons request requests ih =>
    obtain ⟨hrequest, hrequests⟩ := List.forall_mem_cons.mp hproper
    cases requests with
    | nil =>
      obtain ⟨cut, ⟨w, hcut⟩, hiff⟩ := readAs_last nRequests v c hrequest
      rw [chunks_singleton hrequest, requestLines, hcut, hiff.mpr h, if_pos hrequest.mem]
      rfl
    | cons request' requests =>
      obtain ⟨hlen, hfits⟩ := h
      obtain ⟨w, hw, hkept⟩ := requestLine_line nRequests v c hrequest (.inl rfl)
      rw [chunks_cons hrequest hlen, requestLines, hw, Option.bind_some,
        ih (c.execute nRequests request) hrequests (hkept ▸ hfits)]
      rfl

/-- The other direction. -/
theorem fits_of_requestLines {requests : List Request} {v : Variables} {c d : Client}
    (hproper : ∀ request ∈ requests, hosted.Proper request)
    (h : requestLines hosted.names nRequests v c (chunks requests) = some d)
    (hexecuted : d.executed = c.executed ++ requests) : Fits v.serverId requests := by
  induction requests generalizing v c with
  | nil => trivial
  | cons request requests ih =>
    obtain ⟨hrequest, hrequests⟩ := List.forall_mem_cons.mp hproper
    cases requests with
    | nil =>
      obtain ⟨cut, ⟨w, hcut⟩, hiff⟩ := readAs_last nRequests v c hrequest
      rw [chunks_singleton hrequest, requestLines, hcut] at h
      split_ifs at h
      · cases h
        exact hiff.mp (List.singleton_inj.mp (List.append_cancel_left hexecuted))
      · cases h
    | cons request' requests =>
      by_cases hlen : request.line.length < 99
      · obtain ⟨w, hw, hkept⟩ :=
          requestLine_line nRequests v c hrequest (.inl rfl)
        rw [chunks_cons hrequest hlen, requestLines, hw, Option.bind_some] at h
        refine ⟨hlen, hkept ▸ ih hrequests h ?_⟩
        rw [hexecuted, Client.execute, List.append_assoc]
        rfl
      · -- there are not enough lines
        have hfew := length_chunks_lt hproper (Nat.not_lt.mp hlen)
        have hmany := requestLines_executed h
        rw [hexecuted, List.length_append] at hmany
        omega

theorem requestServersFromInputFile_eq (hosted : Hosted) (rand : ℕ → ℕ) (v : Variables) :
    requestServersFromInputFile hosted.names nRequests
        (some (generateRandomInputFile hosted rand nRequests 0)) v =
      requestLines hosted.names nRequests v .initial (chunks (hosted.chosen rand nRequests 0)) := by
  rw [requestServersFromInputFile, Option.bind_some, Hosted.generateRandomInputFile_eq, chunks]

theorem fits_of_executed {rand : ℕ → ℕ} {v : Variables} (h : hosted.Executed rand nRequests v) :
    Fits v.serverId (hosted.chosen rand nRequests 0) := by
  obtain ⟨c, hc, hexecuted, -⟩ := h
  rw [requestServersFromInputFile_eq] at hc
  exact fits_of_requestLines (hosted.chosen_proper rand nRequests 0) hc hexecuted

end run

/-- A generated file is executed as it was generated just when no line is cut, except where
nothing is lost with the end of the last one. -/
theorem input_file_executed_iff (hosted : Hosted) (rand : ℕ → ℕ) (nRequests : ℕ) (v : Variables) :
    hosted.Executed rand nRequests v ↔ Fits v.serverId (hosted.chosen rand nRequests 0) := by
  refine ⟨fits_of_executed, fun hfits => ?_⟩
  have hproper := hosted.chosen_proper rand nRequests 0
  have hlength := hosted.length_chosen rand nRequests 0
  obtain ⟨hexecuted, hcount, -⟩ :=
    Client.initial.executeAll_counts nRequests (hosted.chosen rand nRequests 0)
  have hexecuted := hexecuted.trans (List.nil_append _)
  have hnRequests := (Nat.zero_add _).trans hlength
  have hread := @requestLines_of_fits _ nRequests _ _ .initial hproper hfits
  refine ⟨_, (requestServersFromInputFile_eq ..).trans hread, hexecuted, fun request hmem => ?_,
    hcount.trans hnRequests, ?_⟩
  · exact hproper request (hexecuted ▸ hmem)
  · split_ifs with hzero
    · rw [List.length_eq_zero_iff.mp (hlength.trans hzero)]
      rfl
    · refine Client.initial.announced_executeAll_last nRequests (fun hnil => hzero ?_) hnRequests
      rw [← hlength, hnil]
      rfl

/-- Three servers that host a file whose name has 92 characters. -/
def longName : Hosted where
  listFiles := [⟨.replicate 92 97, isWord_of_all (List.cons_ne_nil _ _) rfl,
    (fun h => nomatch List.eq_of_mem_replicate h), by decide⟩]
  ne_nil := List.cons_ne_nil _ _
  nServers := 3
  pos := by decide
  range := by decide

/-- Two reads of this file come out as one. Both are in the same line. -/
theorem input_file_executed_fails :
    ¬ ∀ (hosted : Hosted) (rand : ℕ → ℕ) (nRequests : ℕ) (v : Variables),
      hosted.Executed rand nRequests v := by
  intro h
  have hfits := fits_of_executed (h longName (fun _ => 1) 2 ⟨[], [], 0⟩)
  exact absurd hfits.1 (by decide)

end DistributedME.InputFile
