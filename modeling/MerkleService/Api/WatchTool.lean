import MerkleService.Api.Broadcast
import MerkleService.Data.Lines
import MerkleService.Kafka.Codec
import MerkleService.LTS.Basic

/-!
# Registering the transactions of a file

The command `watch` (`cmd/watch/main.go`) reads txids from a file and registers them, one goroutine
and one `POST /watch` for each, not more than `--concurrency` of them at a time.  Its exit code is
zero when every request was answered with 200.

The tool has its own check of a txid, and its own reading of the answers; what it relies on is that
the server agrees.

* `loadTxids_reads` : **the files that are accepted are those that are well formed**: every line
  is blank, or a comment, or a txid of the pattern of the server between white space.
* `machine` : the goroutines, the requests under way and the server, which other clients use too.
* `bulk_registers` : **if the tool exits with zero, then every txid of the file is registered**; at
  no time are more requests under way than allowed; and no request is refused for its body or txid.
* `bulk_ends_iff` : **the tool ends exactly if it is allowed at least one request at a time.**

What this does not say: that registrations are kept.  The stores expire them some time after the
transaction was mined.
-/

namespace MerkleService

namespace WatchTool

open Api
open Json (StructField)
open Kafka (stringField)

/-! ### What is sent -/

/-- The tags of `watchRequest` of the tool, which are those of `WatchRequest` of the server. -/
def watchFields : List (StructField WatchRequest) :=
  [stringField "txid" (·.txID) fun a m => { m with txID := a },
    stringField "callbackUrl" (·.callbackURL) fun a m => { m with callbackURL := a }]

/-- `json.Marshal` of a `watchRequest`. -/
def encodeRequest (req : WatchRequest) : String := Json.encode watchFields req

/-- `json.NewDecoder(r.Body).Decode(&req)`: what follows the first value of the body is not read. -/
def decodeBody (body : String) : Option WatchRequest :=
  (Json.parseValue (body.toList.length + 1) Json.maxDepth (Json.skip body.toList)).bind fun p =>
    Json.unmarshal watchFields ⟨"", ""⟩ p.1

/-- `ErrorResponse` has one field. -/
def errorFields : List (StructField String) := [stringField "error" id fun a _ => a]

/-- The status code that `writeJSON` is called with. -/
def statusCode : Response → ℕ
  | .error code _ => code
  | .watch _ _ => 200

/-- What `writeJSON` writes, for an answer that is not 200: the encoder ends with a line feed. -/
def errorBody : Response → String
  | .error _ err => Json.encode errorFields err ++ "\n"
  | .watch _ _ => ""

/-- The end of `registerOne`: its error for an answer of the server. -/
def answerErr (r : Response) : Option String :=
  if statusCode r = 200 then none
  else some s!"HTTP {statusCode r}: {String.ofList (Lines.trim (errorBody r).toList)}"

/-- The URL that `registerOne` posts to. -/
def target (apiURL : String) : String :=
  String.ofList (apiURL.toList.rdropWhile (· = '/')) ++ "/watch"

/-! ### What is read -/

/-- An error of `validateTxid`. -/
inductive TxidError where
  | length (got : ℕ)
  | character (c : Char) (position : ℕ)
  deriving DecidableEq

/-- The loop of `validateTxid`, at the byte `i` of the text. -/
def badCharacter : ℕ → List Char → Option TxidError
  | _, [] => none
  | i, c :: cs =>
    if isHexChar c then badCharacter (i + c.utf8Size) cs else some (.character c i)

/-- `validateTxid`. -/
def validateTxid (s : String) : Option TxidError :=
  if Lines.bytes s.toList ≠ 64 then some (.length (Lines.bytes s.toList))
  else badCharacter 0 s.toList

/-- An entry of `errs`. -/
structure LineError where
  lineNum : ℕ
  line : String
  err : TxidError
  deriving DecidableEq

/-- The variables of the loop of `loadTxids`. -/
structure Loading where
  lineNum : ℕ
  txids : List String
  errs : List LineError

/-- `line`: the text of the scanner without the white space around it. -/
def lineOf (text : List Char) : String := String.ofList (Lines.trim text)

/-- A line that is blank or begins with `#`. -/
def Skipped (text : List Char) : Prop := Lines.trim text = [] ∨ (Lines.trim text).head? = some '#'

instance decidableSkipped (text : List Char) : Decidable (Skipped text) :=
  inferInstanceAs (Decidable (_ ∨ _))

/-- The body of the loop of `loadTxids`. -/
def loadLine (s : Loading) (text : List Char) : Loading :=
  let lineNum := s.lineNum + 1
  if Skipped text then { s with lineNum := lineNum }
  else
    match validateTxid (lineOf text) with
    | some err => ⟨lineNum, s.txids, s.errs ++ [⟨lineNum, lineOf text, err⟩]⟩
    | none => ⟨lineNum, s.txids ++ [lineOf text], s.errs⟩

/-- What `os.Open` and the reads give: the text up to the end, or up to an error. -/
inductive Input where
  | unopened (err : String)
  | text (t : List Char) (readErr : Option String)

/-- An error of `loadTxids`. -/
inductive LoadError where
  | open (err : String)
  | reading (err : String)
  | invalid (errs : List LineError)
  deriving DecidableEq

/-- `bufio.MaxScanTokenSize`. -/
def maxScanTokenSize : ℕ := 65536

/-- `loadTxids`. -/
def loadTxids : Input → Except LoadError (List String)
  | .unopened err => .error (.open err)
  | .text t readErr =>
    let scanned := Lines.scan maxScanTokenSize (Lines.lines t)
    let loaded := scanned.1.foldl loadLine ⟨0, [], []⟩
    if scanned.2 then .error (.reading "bufio.Scanner: token too long")
    else
      match readErr with
      | some err => .error (.reading err)
      | none => if 0 < loaded.errs.length then .error (.invalid loaded.errs) else .ok loaded.txids

/-- The flags. -/
structure Flags where
  url : String
  callback : String
  txid : String
  file : String
  concurrency : ℤ

/-- What the tool does after it has read its flags and its file: it exits, or it registers, with so
many requests at a time. -/
inductive Start where
  | exit (code : ℕ)
  | register (txids : List String) (slots : ℕ)
  deriving DecidableEq

/-- `main`, `runSingle` and `runBulk` up to the first request.  A single txid is registered by
`main` itself, one request at a time; a negative `--concurrency` panics in `make`, with the exit
code 2. -/
def start (flags : Flags) (input : String → Input) : Start :=
  if flags.url = "" ∨ flags.callback = "" then .exit 2
  else if flags.txid = "" ∧ flags.file = "" then .exit 2
  else if flags.txid ≠ "" ∧ flags.file ≠ "" then .exit 2
  else if flags.txid ≠ "" then
    match validateTxid flags.txid with
    | some _ => .exit 2
    | none => .register [flags.txid] 1
  else
    match loadTxids (input flags.file) with
    | .error _ => .exit 2
    | .ok [] => .exit 0
    | .ok (t :: ts) =>
      if flags.concurrency < 0 then .exit 2 else .register (t :: ts) flags.concurrency.toNat

/-! ### The goroutines -/

/-- Where a goroutine is: before `sem <- struct{}{}`, in `client.Do`, after `registerOne`, and after
it has given back its place; with the error of `registerOne`. -/
inductive Phase where
  | waiting
  | posting
  | returned (err : Option String)
  | done (err : Option String)
  deriving DecidableEq

/-- Where its request is. -/
inductive Transit where
  | unsent
  | sent
  | answered (r : Response)

structure Job where
  phase : Phase
  request : Transit

/-- A place in `sem` is taken. -/
def Job.holds (j : Job) : ℕ :=
  match j.phase with
  | .posting | .returned _ => 1
  | .waiting | .done _ => 0

structure State where
  stores : Stores
  jobs : List Job

def State.init (stores : Stores) (txids : List String) : State :=
  ⟨stores, txids.map fun _ => ⟨.waiting, .unsent⟩⟩

/-- `len(sem)`. -/
def State.held (s : State) : ℕ := (s.jobs.map Job.holds).sum

/-- The steps: a goroutine takes a place and posts its request; the server handles it; the
goroutine gets the answer, or it fails (a lost connection, the time limit), whatever has become of
the request; it gives its place back.  Other clients post what they like. -/
inductive Label where
  | acquire (i : ℕ)
  | handle (i : ℕ) (env : Env)
  | receive (i : ℕ)
  | fail (i : ℕ) (err : String)
  | release (i : ℕ)
  | other (env : Env) (body : String)

/-- The part of the tool that all goroutines share. -/
structure Tool where
  flags : Flags
  txids : List String
  /-- The capacity of `sem`. -/
  slots : ℕ
  /-- The error of `http.NewRequestWithContext` for a URL. -/
  requestErr : String → Option String

variable (tool : Tool)

/-- `registerOne` up to `client.Do`. -/
def Tool.posted : Job :=
  match tool.requestErr (target tool.flags.url) with
  | some err => ⟨.returned (some s!"creating request: {err}"), .unsent⟩
  | none => ⟨.posting, .sent⟩

/-- The body of the request for a txid. -/
def Tool.body (txid : String) : String := encodeRequest ⟨txid, tool.flags.callback⟩

def step (s : State) : Label → Option State
  | .acquire i =>
    match s.jobs[i]? with
    | some ⟨.waiting, _⟩ =>
      if s.held < tool.slots then some ⟨s.stores, s.jobs.set i tool.posted⟩ else none
    | _ => none
  | .handle i env =>
    match s.jobs[i]?, tool.txids[i]? with
    | some ⟨p, .sent⟩, some txid =>
      let answer := handleWatch env s.stores (decodeBody (tool.body txid))
      some ⟨answer.1, s.jobs.set i ⟨p, .answered answer.2⟩⟩
    | _, _ => none
  | .receive i =>
    match s.jobs[i]? with
    | some ⟨.posting, .answered r⟩ =>
      some ⟨s.stores, s.jobs.set i ⟨.returned (answerErr r), .answered r⟩⟩
    | _ => none
  | .fail i err =>
    match s.jobs[i]? with
    | some ⟨.posting, q⟩ => some ⟨s.stores, s.jobs.set i ⟨.returned (some err), q⟩⟩
    | _ => none
  | .release i =>
    match s.jobs[i]? with
    | some ⟨.returned err, q⟩ => some ⟨s.stores, s.jobs.set i ⟨.done err, q⟩⟩
    | _ => none
  | .other env body => some ⟨(handleWatch env s.stores (decodeBody body)).1, s.jobs⟩

def machine : LTS State Label := ⟨step tool⟩

/-- The entry of `results`, of a goroutine that has called `wg.Done`. -/
def Job.result? (j : Job) : Option (Option String) :=
  match j.phase with
  | .done err => some err
  | _ => none

/-- The exit code, once `wg.Wait` returns. -/
def State.exitCode (s : State) : Option ℕ :=
  let results := s.jobs.filterMap Job.result?
  if results.length < s.jobs.length then none
  else some (if results.countP Option.isNone < s.jobs.length then 1 else 0)

/-! ### The two sides agree -/

theorem lawful_watchFields : Json.Lawful watchFields where
  nodup := by decide
  get_put := by
    intro f hf a m
    simp only [watchFields, List.mem_cons, List.not_mem_nil, or_false] at hf
    rcases hf with rfl | rfl <;> rfl
  get_put_of_ne := by
    intro f hf g hg hne a m
    simp only [watchFields, List.mem_cons, List.not_mem_nil, or_false] at hf hg
    rcases hf with rfl | rfl <;> rcases hg with rfl | rfl <;> first | rfl | exact absurd rfl hne
  ext := by
    intro m m' h
    simp only [watchFields, List.forall_mem_cons] at h
    obtain ⟨h₁, h₂, -⟩ := h
    cases m
    cases m'
    simp only [WatchRequest.mk.injEq]
    exact ⟨h₁, h₂⟩

theorem decodeBody_encodeRequest (req : WatchRequest) :
    decodeBody (encodeRequest req) = some req := by
  have hfaith : ∀ f ∈ watchFields, f.Faithful ⟨"", ""⟩ req := by
    simp only [watchFields, List.forall_mem_cons]
    exact ⟨Kafka.faithful_string, Kafka.faithful_string, by simp⟩
  obtain ⟨v, hparse, hread⟩ :=
    Option.bind_eq_some_iff.1 (Json.decode_encode lawful_watchFields hfaith)
  obtain ⟨p, hvalue, hrest⟩ := Option.bind_eq_some_iff.1 hparse
  split_ifs at hrest
  obtain rfl := Option.some.inj hrest
  unfold decodeBody encodeRequest
  rw [hvalue, Option.bind_some]
  exact hread

theorem toNat_of_isHexChar {c : Char} (h : isHexChar c = true) : 48 ≤ c.toNat ∧ c.toNat ≤ 102 := by
  simp only [isHexChar, Bool.or_eq_true, Bool.and_eq_true, decide_eq_true_eq, Char.le_def,
    UInt32.le_iff_toNat_le] at h
  rcases h with (⟨hlo, hhi⟩ | ⟨hlo, hhi⟩) | ⟨hlo, hhi⟩
  · exact ⟨le_trans (by decide) hlo, hhi⟩
  · exact ⟨le_trans (by decide) hlo, le_trans hhi (by decide)⟩
  · exact ⟨hlo, le_trans hhi (by decide)⟩

theorem utf8Size_of_isHexChar {c : Char} (h : isHexChar c = true) : c.utf8Size = 1 := by
  rw [Char.utf8Size_eq_one_iff, UInt32.le_iff_toNat_le]
  exact le_trans (toNat_of_isHexChar h).2 (by decide)

theorem isSpace_of_isHexChar {c : Char} (h : isHexChar c = true) : Lines.isSpace c = false := by
  obtain ⟨hlo, hhi⟩ := toNat_of_isHexChar h
  simp only [Lines.isSpace, Bool.or_eq_false_iff, Bool.and_eq_false_iff, decide_eq_false_iff_not,
    beq_eq_false_iff_ne]
  omega

theorem badCharacter_eq_none_iff {i : ℕ} {cs : List Char} :
    badCharacter i cs = none ↔ cs.all isHexChar = true := by
  induction cs generalizing i with
  | nil => simp [badCharacter]
  | cons c cs ih =>
    rw [badCharacter, List.all_cons, Bool.and_eq_true]
    split_ifs with hc
    · simp [ih, hc]
    · simp [hc]

/-- **The tool and the server accept the same txids.**  The tool counts bytes, and the server
characters. -/
theorem validateTxid_eq_none_iff {s : String} :
    validateTxid s = none ↔ txidRegexMatch s = true := by
  have hbytes : s.toList.all isHexChar = true → Lines.bytes s.toList = s.toList.length := by
    intro hall
    have hone : s.toList.map Char.utf8Size = s.toList.map fun _ => 1 :=
      List.map_congr_left fun c hc => utf8Size_of_isHexChar (List.all_eq_true.1 hall c hc)
    rw [Lines.bytes, hone]
    simp
  rw [validateTxid, txidRegexMatch, Bool.and_eq_true, beq_iff_eq]
  split_ifs with hlen
  · constructor
    · intro h
      cases h
    · rintro ⟨hall, h64⟩
      exact absurd ((hbytes hall).trans h64) hlen
  · rw [badCharacter_eq_none_iff]
    constructor
    · intro hall
      exact ⟨hall, by rw [← hbytes hall, not_not.1 hlen]⟩
    · exact fun h => h.1

/-! ### The file -/

/-- The txid of a line. -/
def txidOf (text : List Char) : Option String :=
  if ¬ Skipped text ∧ validateTxid (lineOf text) = none then some (lineOf text) else none

/-- The error of the line `lineNum`. -/
def errorOf (text : List Char) (lineNum : ℕ) : Option LineError :=
  if Skipped text then none
  else (validateTxid (lineOf text)).map fun err => ⟨lineNum, lineOf text, err⟩

theorem loadLine_eq (s : Loading) (text : List Char) :
    loadLine s text = ⟨s.lineNum + 1, s.txids ++ (txidOf text).toList,
      s.errs ++ (errorOf text (s.lineNum + 1)).toList⟩ := by
  unfold loadLine txidOf errorOf
  by_cases hskip : Skipped text
  · simp [hskip]
  · cases hvalid : validateTxid (lineOf text) with
    | none => simp [hskip]
    | some err => simp [hskip]

theorem foldl_loadLine (ls : List (List Char)) (s : Loading) :
    ls.foldl loadLine s = ⟨s.lineNum + ls.length, s.txids ++ ls.filterMap txidOf,
      s.errs ++ (ls.zipIdx (s.lineNum + 1)).filterMap fun p => errorOf p.1 p.2⟩ := by
  induction ls generalizing s with
  | nil => simp
  | cons l ls ih =>
    rw [List.foldl_cons, ih, loadLine_eq, List.zipIdx_cons, List.filterMap_cons,
      List.filterMap_cons, List.length_cons]
    cases txidOf l <;> cases errorOf l (s.lineNum + 1) <;>
      simp only [Option.toList_none, Option.toList_some, List.append_nil, List.append_assoc,
        List.singleton_append, Loading.mk.injEq, and_true] <;> omega

/-- The line is one that the loop reports nothing of. -/
def Good (text : List Char) : Prop := Skipped text ∨ txidRegexMatch (lineOf text) = true

theorem errorOf_eq_none_iff {text : List Char} {n : ℕ} : errorOf text n = none ↔ Good text := by
  rw [errorOf, Good, ← validateTxid_eq_none_iff]
  split_ifs with hskip
  · simp [hskip]
  · simp [hskip]

theorem lineOf_dropCR (text : List Char) : lineOf (Lines.dropCR text) = lineOf text := by
  rw [lineOf, Lines.trim_dropCR, lineOf]

theorem skipped_dropCR (text : List Char) : Skipped (Lines.dropCR text) ↔ Skipped text := by
  rw [Skipped, Lines.trim_dropCR, Skipped]

theorem txidOf_dropCR (text : List Char) : txidOf (Lines.dropCR text) = txidOf text := by
  simp only [txidOf, lineOf_dropCR, skipped_dropCR]

theorem errorOf_dropCR (text : List Char) (n : ℕ) :
    errorOf (Lines.dropCR text) n = errorOf text n := by
  simp only [errorOf, lineOf_dropCR, skipped_dropCR]

/-- The errors of the lines of a text, which are counted from one. -/
def badLines (t : List Char) : List LineError :=
  ((Lines.lines t).zipIdx 1).filterMap fun p => errorOf p.1 p.2

theorem loadTxids_text (t : List Char) : loadTxids (.text t none) =
    if ∀ l ∈ Lines.lines t, Lines.bytes l < maxScanTokenSize then
      if badLines t = [] then .ok ((Lines.lines t).filterMap txidOf)
      else .error (.invalid (badLines t))
    else .error (.reading "bufio.Scanner: token too long") := by
  simp only [loadTxids]
  by_cases hfits : ∀ l ∈ Lines.lines t, Lines.bytes l < maxScanTokenSize
  · have htxids : ((Lines.lines t).map Lines.dropCR).filterMap txidOf =
        (Lines.lines t).filterMap txidOf := by
      rw [List.filterMap_map]
      exact List.filterMap_congr fun l _ => txidOf_dropCR l
    have herrs : (((Lines.lines t).map Lines.dropCR).zipIdx 1).filterMap
        (fun p => errorOf p.1 p.2) = badLines t := by
      rw [List.zipIdx_map, List.filterMap_map]
      exact List.filterMap_congr fun p _ => errorOf_dropCR p.1 p.2
    rw [Lines.scan_of_fits hfits, if_pos hfits]
    simp only [foldl_loadLine, List.nil_append, Nat.zero_add, Bool.false_eq_true, if_false, herrs,
      htxids, List.length_pos_iff, ite_not]
  · have htoolong : (Lines.scan maxScanTokenSize (Lines.lines t)).2 = true := by
      rw [← Bool.not_eq_false]
      exact fun h => hfits (Lines.fits_of_scan h)
    rw [if_neg hfits]
    simp only [htoolong, if_true]

theorem badLines_eq_nil_iff {t : List Char} : badLines t = [] ↔ ∀ l ∈ Lines.lines t, Good l := by
  rw [badLines, List.filterMap_eq_nil_iff]
  constructor
  · intro h l hl
    obtain ⟨k, hk⟩ := List.mem_iff_getElem?.1 hl
    exact errorOf_eq_none_iff.1 (h (l, 1 + k) (List.mk_add_mem_zipIdx_iff_getElem?.2 hk))
  · rintro h ⟨l, n⟩ hp
    exact errorOf_eq_none_iff.2 (h l (List.fst_mem_of_mem_zipIdx hp))

theorem mem_badLines_iff {t : List Char} {e : LineError} : e ∈ badLines t ↔
    ∃ k text err, (Lines.lines t)[k]? = some text ∧ ¬ Skipped text ∧
      validateTxid (lineOf text) = some err ∧ e = ⟨k + 1, lineOf text, err⟩ := by
  simp only [badLines, List.mem_filterMap, Prod.exists]
  constructor
  · rintro ⟨text, n, hmem, he⟩
    obtain ⟨hle, hk⟩ := List.mk_mem_zipIdx_iff_le_and_getElem?_sub.1 hmem
    unfold errorOf at he
    split_ifs at he with hskip
    obtain ⟨err, herr, rfl⟩ := Option.map_eq_some_iff.1 he
    exact ⟨n - 1, text, err, hk, hskip, herr, by rw [Nat.sub_add_cancel hle]⟩
  · rintro ⟨k, text, err, hk, hskip, herr, rfl⟩
    refine ⟨text, 1 + k, List.mk_add_mem_zipIdx_iff_getElem?.2 hk, ?_⟩
    rw [errorOf, if_neg hskip, herr, Option.map_some, add_comm]

theorem good_nil : Good [] := .inl (.inl rfl)

/-- The pieces between the line feeds are all short enough, and none is an error. -/
theorem loadTxids_eq_ok_iff {t : List Char} {txids : List String} :
    loadTxids (.text t none) = .ok txids ↔
      (∀ l ∈ t.splitOn '\n', Lines.bytes l < maxScanTokenSize ∧ Good l) ∧
        txids = (t.splitOn '\n').filterMap txidOf := by
  have hpieces : (∀ l ∈ t.splitOn '\n', Lines.bytes l < maxScanTokenSize ∧ Good l) ↔
      (∀ l ∈ Lines.lines t, Lines.bytes l < maxScanTokenSize) ∧ badLines t = [] := by
    rw [badLines_eq_nil_iff, ← forall₂_and,
      ← Lines.forall_mem_lines_iff (p := fun l => Lines.bytes l < maxScanTokenSize ∧ Good l)
        ⟨by decide, good_nil⟩]
  have htxids : (Lines.lines t).filterMap txidOf = (t.splitOn '\n').filterMap txidOf :=
    Lines.filterMap_lines rfl t
  rw [loadTxids_text, hpieces, ← htxids]
  split_ifs with hfits hbad
  · rw [Except.ok.injEq, and_iff_right ⟨hfits, hbad⟩, eq_comm]
  · simp [hbad]
  · simp [hfits]

theorem match_of_loadTxids {inp : Input} {txids : List String} (h : loadTxids inp = .ok txids) :
    ∀ t ∈ txids, txidRegexMatch t = true := by
  cases inp with
  | unopened err => cases h
  | text text readErr =>
    cases readErr with
    | some err =>
      simp only [loadTxids] at h
      split_ifs at h
    | none =>
      rw [loadTxids_eq_ok_iff] at h
      intro t ht
      rw [h.2, List.mem_filterMap] at ht
      obtain ⟨l, -, hl⟩ := ht
      unfold txidOf at hl
      split_ifs at hl with hvalid
      rw [← Option.some.inj hl]
      exact validateTxid_eq_none_iff.1 hvalid.2

/-- A line of a well-formed file. -/
inductive FileLine where
  | blank (w : List Char)
  | comment (w rest : List Char)
  | txid (w : List Char) (t : String) (w' : List Char)

namespace FileLine

def text : FileLine → List Char
  | blank w => w
  | comment w rest => w ++ '#' :: rest
  | txid w t w' => w ++ (t.toList ++ w')

def txid? : FileLine → Option String
  | txid _ t _ => some t
  | _ => none

/-- The white space is white space, and the txid is one for the server. -/
def Spaced : FileLine → Prop
  | blank w => ∀ c ∈ w, Lines.isSpace c = true
  | comment w _ => ∀ c ∈ w, Lines.isSpace c = true
  | txid w t w' => (∀ c ∈ w, Lines.isSpace c = true) ∧ txidRegexMatch t = true ∧
      ∀ c ∈ w', Lines.isSpace c = true

structure WellFormed (l : FileLine) : Prop where
  spaced : l.Spaced
  oneLine : '\n' ∉ l.text
  fits : Lines.bytes l.text < maxScanTokenSize

end FileLine

/-- The file with the lines. -/
def fileText (ls : List FileLine) : List Char := ['\n'].intercalate (ls.map FileLine.text)

theorem not_skipped_of_match {t : String} (h : txidRegexMatch t = true) {text : List Char}
    (htrim : Lines.trim text = t.toList) : ¬ Skipped text := by
  rw [txidRegexMatch, Bool.and_eq_true, beq_iff_eq] at h
  rw [Skipped, htrim, not_or]
  constructor
  · intro hnil
    simp [hnil] at h
  · intro hhash
    have hhex := List.all_eq_true.1 h.1 '#' (List.mem_of_mem_head? hhash)
    exact absurd hhex (by decide)

theorem good_text {l : FileLine} (h : l.Spaced) : Good l.text ∧ txidOf l.text = l.txid? := by
  cases l with
  | blank w =>
    have hskip : Skipped w := .inl (Lines.trim_eq_nil_iff.2 h)
    exact ⟨.inl hskip, by simp [txidOf, FileLine.text, hskip, FileLine.txid?]⟩
  | comment w rest =>
    have hskip : Skipped (w ++ '#' :: rest) := by
      refine .inr ?_
      rw [Lines.trim_append_left h]
      exact Lines.head?_trim_cons (by decide)
    exact ⟨.inl hskip, by simp [txidOf, FileLine.text, hskip, FileLine.txid?]⟩
  | txid w t w' =>
    obtain ⟨hw, ht, hw'⟩ := h
    have hhex := List.all_eq_true.1 (Bool.and_eq_true_iff.1 ht).1
    have htrim : Lines.trim (w ++ (t.toList ++ w')) = t.toList :=
      Lines.trim_pad hw hw' fun c hc => isSpace_of_isHexChar (hhex c hc)
    have hline : lineOf (w ++ (t.toList ++ w')) = t := by
      rw [lineOf, htrim, String.ofList_toList]
    refine ⟨.inr (by rw [FileLine.text, hline]; exact ht), ?_⟩
    rw [txidOf, FileLine.text, hline,
      if_pos ⟨not_skipped_of_match ht htrim, validateTxid_eq_none_iff.2 ht⟩, FileLine.txid?]

theorem exists_spaced {text : List Char} (h : Good text) :
    ∃ l : FileLine, l.Spaced ∧ l.text = text := by
  obtain ⟨w, w', hw, hw', htext⟩ := Lines.exists_pad text
  rcases h with (hblank | hhash) | hmatch
  · exact ⟨.blank text, Lines.trim_eq_nil_iff.1 hblank, rfl⟩
  · obtain ⟨rest, hrest⟩ := List.head?_eq_some_iff.1 hhash
    refine ⟨.comment w (rest ++ w'), hw, ?_⟩
    rw [FileLine.text, ← List.cons_append, ← hrest, ← htext]
  · refine ⟨.txid w (lineOf text) w', ⟨hw, hmatch, hw'⟩, ?_⟩
    rw [FileLine.text, lineOf, String.toList_ofList, ← htext]

theorem exists_wellFormed {pieces : List (List Char)} (hline : ∀ l ∈ pieces, '\n' ∉ l)
    (h : ∀ l ∈ pieces, Lines.bytes l < maxScanTokenSize ∧ Good l) :
    ∃ ls : List FileLine, (∀ l ∈ ls, l.WellFormed) ∧ ls.map FileLine.text = pieces := by
  induction pieces with
  | nil => exact ⟨[], by simp, rfl⟩
  | cons text pieces ih =>
    rw [List.forall_mem_cons] at hline h
    obtain ⟨ls, hls, rfl⟩ := ih hline.2 h.2
    obtain ⟨l, hspaced, rfl⟩ := exists_spaced h.1.2
    exact ⟨l :: ls, List.forall_mem_cons.2 ⟨⟨hspaced, hline.1, h.1.1⟩, hls⟩, rfl⟩

theorem loadTxids_fileText {ls : List FileLine} (hne : ls ≠ []) (h : ∀ l ∈ ls, l.WellFormed) :
    loadTxids (.text (fileText ls) none) = .ok (ls.filterMap FileLine.txid?) := by
  have hsplit : (fileText ls).splitOn '\n' = ls.map FileLine.text := by
    refine List.splitOn_intercalate '\n' ?_ (by simpa using hne)
    intro text htext
    obtain ⟨l, hl, rfl⟩ := List.mem_map.1 htext
    exact (h l hl).oneLine
  rw [loadTxids_eq_ok_iff, hsplit, List.filterMap_map]
  constructor
  · intro text htext
    obtain ⟨l, hl, rfl⟩ := List.mem_map.1 htext
    exact ⟨(h l hl).fits, (good_text (h l hl).spaced).1⟩
  · exact List.filterMap_congr fun l hl => ((good_text (h l hl).spaced).2).symm

variable {tool : Tool}

/-- The client's or the server's part in the job of goroutine `i` moves on. -/
inductive Moves (tool : Tool) (s : State) (i : ℕ) : Label → Job → Job → Stores → Prop
  | acquire {q : Transit} (hfree : s.held < tool.slots) :
      Moves tool s i (.acquire i) ⟨.waiting, q⟩ tool.posted s.stores
  | handle {p : Phase} {txid : String} (env : Env) (htxid : tool.txids[i]? = some txid) :
      Moves tool s i (.handle i env) ⟨p, .sent⟩
        ⟨p, .answered (handleWatch env s.stores (some ⟨txid, tool.flags.callback⟩)).2⟩
        (handleWatch env s.stores (some ⟨txid, tool.flags.callback⟩)).1
  | receive {r : Response} :
      Moves tool s i (.receive i) ⟨.posting, .answered r⟩ ⟨.returned (answerErr r), .answered r⟩
        s.stores
  | fail {q : Transit} (err : String) :
      Moves tool s i (.fail i err) ⟨.posting, q⟩ ⟨.returned (some err), q⟩ s.stores
  | release {q : Transit} {err : Option String} :
      Moves tool s i (.release i) ⟨.returned err, q⟩ ⟨.done err, q⟩ s.stores

/-- **A step is one of another client, or moves one job.** -/
theorem step_cases {s s' : State} {l : Label} (h : (machine tool).step s l = some s') :
    (∃ env body, l = .other env body ∧
      s' = ⟨(handleWatch env s.stores (decodeBody body)).1, s.jobs⟩) ∨
    ∃ i j j' stores', s.jobs[i]? = some j ∧ Moves tool s i l j j' stores' ∧
      s' = ⟨stores', s.jobs.set i j'⟩ := by
  cases l with
  | acquire i =>
    simp only [machine, step] at h
    split at h
    case h_2 => cases h
    case h_1 q hi =>
      split_ifs at h with hfree
      exact .inr ⟨i, _, _, _, hi, .acquire hfree, (Option.some.inj h).symm⟩
  | handle i env =>
    simp only [machine, step] at h
    split at h
    case h_2 => cases h
    case h_1 p txid hi htxid =>
      rw [Tool.body, decodeBody_encodeRequest] at h
      exact .inr ⟨i, _, _, _, hi, .handle env htxid, (Option.some.inj h).symm⟩
  | receive i =>
    simp only [machine, step] at h
    split at h
    case h_2 => cases h
    case h_1 r hi => exact .inr ⟨i, _, _, _, hi, .receive, (Option.some.inj h).symm⟩
  | fail i err =>
    simp only [machine, step] at h
    split at h
    case h_2 => cases h
    case h_1 q hi => exact .inr ⟨i, _, _, _, hi, .fail err, (Option.some.inj h).symm⟩
  | release i =>
    simp only [machine, step] at h
    split at h
    case h_2 => cases h
    case h_1 err q hi => exact .inr ⟨i, _, _, _, hi, .release, (Option.some.inj h).symm⟩
  | other env body => exact .inl ⟨env, body, rfl, (Option.some.inj h).symm⟩

/-! ### What the server does -/

theorem mem_regStore_handleWatch {env : Env} {stores : Stores} {body : Option WatchRequest}
    {url txid : String} (h : url ∈ stores.regStore txid) :
    url ∈ (handleWatch env stores body).1.regStore txid := by
  cases hanswer : handleWatch env stores body with
  | mk stores' r => cases r with
    | error code err =>
      rw [handleWatch_error hanswer]
      exact h
    | watch status message =>
      cases body with
      | none => cases (Prod.mk.inj hanswer).2
      | some req =>
        rw [(handleWatch_ok hanswer).2]
        exact mem_add_iff.2 (.inl h)

/-- The answers that the tool gets: the registration is there, or the server refuses the URL, or it
fails. -/
def Answered (callback : String) (stores : Stores) (txid : String) (r : Response) : Prop :=
  r = .watch "ok" "registration successful" ∧ callback ∈ stores.regStore txid ∨
  r = .error 400 "invalid callbackUrl: must be a valid HTTP/HTTPS URL" ∨
  r = .error 500 "internal server error"

theorem Answered.mono {callback txid : String} {stores stores' : Stores} {r : Response}
    (h : Answered callback stores txid r)
    (hmem : callback ∈ stores.regStore txid → callback ∈ stores'.regStore txid) :
    Answered callback stores' txid r :=
  h.imp_left fun hok => ⟨hok.1, hmem hok.2⟩

theorem answered_handleWatch {env : Env} {stores : Stores} {txid callback : String}
    (htxid : txidRegexMatch txid = true) (hcallback : callback ≠ "") :
    Answered callback (handleWatch env stores (some ⟨txid, callback⟩)).1 txid
      (handleWatch env stores (some ⟨txid, callback⟩)).2 := by
  have hne : txid ≠ "" := by
    rintro rfl
    exact absurd htxid (by decide)
  simp only [handleWatch, if_neg hne, htxid, Bool.true_eq_false, if_false, if_neg hcallback]
  split_ifs with hvalid
  · exact .inr (.inl rfl)
  · cases env.addErr txid callback with
    | some err => exact .inr (.inr rfl)
    | none => exact .inl ⟨rfl, mem_add_iff.2 (.inr ⟨rfl, rfl⟩)⟩

theorem Answered.registered {callback txid : String} {stores : Stores} {r : Response}
    (h : Answered callback stores txid r) (hok : statusCode r = 200) :
    callback ∈ stores.regStore txid := by
  rcases h with ⟨-, hmem⟩ | rfl | rfl
  · exact hmem
  · simp [statusCode] at hok
  · simp [statusCode] at hok

/-! ### What holds in every state -/

/-- The tool has checked what it sends. -/
structure Tool.Checked (tool : Tool) : Prop where
  txids : ∀ t ∈ tool.txids, txidRegexMatch t = true
  callback : tool.flags.callback ≠ ""

/-- A goroutine without an error has got an answer with status 200, and every answer is one of
those above. -/
structure JobOk (tool : Tool) (stores : Stores) (i : ℕ) (j : Job) : Prop where
  success : j.phase = .returned none ∨ j.phase = .done none →
    ∃ r, j.request = .answered r ∧ statusCode r = 200
  answered : ∀ r, j.request = .answered r →
    ∃ t, tool.txids[i]? = some t ∧ Answered tool.flags.callback stores t r

structure Sound (tool : Tool) (s : State) : Prop where
  length : s.jobs.length = tool.txids.length
  held : s.held ≤ tool.slots
  jobs : ∀ (i : ℕ) j, s.jobs[i]? = some j → JobOk tool s.stores i j

theorem sound_init (stores : Stores) : Sound tool (State.init stores tool.txids) where
  length := by rw [State.init, List.length_map]
  held := by simp [State.init, State.held, Job.holds]
  jobs := by
    intro i j hj
    simp only [State.init, List.getElem?_map, Option.map_eq_some_iff] at hj
    obtain ⟨t, -, rfl⟩ := hj
    exact ⟨by simp, by simp⟩

theorem JobOk.mono {stores stores' : Stores} {i : ℕ} {j : Job} (h : JobOk tool stores i j)
    (hmem : ∀ url txid, url ∈ stores.regStore txid → url ∈ stores'.regStore txid) :
    JobOk tool stores' i j where
  success := h.success
  answered := by
    intro r hr
    obtain ⟨t, ht, hanswered⟩ := h.answered r hr
    exact ⟨t, ht, hanswered.mono (hmem _ _)⟩

section

variable {s : State} {i : ℕ} {l : Label} {j j' : Job} {stores' : Stores}

theorem Moves.mem (h : Moves tool s i l j j' stores') {url txid : String}
    (hmem : url ∈ s.stores.regStore txid) : url ∈ stores'.regStore txid := by
  cases h with
  | handle env htxid => exact mem_regStore_handleWatch hmem
  | acquire hfree => exact hmem
  | receive => exact hmem
  | fail err => exact hmem
  | release => exact hmem

theorem Moves.holds (h : Moves tool s i l j j' stores') :
    j'.holds ≤ j.holds ∨ s.held < tool.slots ∧ j'.holds = 1 ∧ j.holds = 0 := by
  cases h with
  | acquire hfree =>
    refine .inr ⟨hfree, ?_, rfl⟩
    unfold Tool.posted
    split
    · rfl
    · rfl
  | handle env htxid => exact .inl le_rfl
  | receive => exact .inl le_rfl
  | fail err => exact .inl le_rfl
  | release => exact .inl (Nat.zero_le _)

theorem Moves.jobOk (hchecked : tool.Checked) (h : Moves tool s i l j j' stores')
    (hok : JobOk tool s.stores i j) : JobOk tool stores' i j' := by
  cases h with
  | acquire hfree =>
    unfold Tool.posted
    split
    · exact ⟨by simp, by simp⟩
    · exact ⟨by simp, by simp⟩
  | @handle p txid env htxid =>
    constructor
    · intro hphase
      obtain ⟨r, hr, -⟩ := hok.success hphase
      cases hr
    · rintro r ⟨⟩
      exact ⟨txid, htxid,
        answered_handleWatch (hchecked.txids txid (List.mem_of_getElem? htxid)) hchecked.callback⟩
  | @receive r =>
    refine ⟨fun hphase => ⟨r, rfl, ?_⟩, hok.answered⟩
    by_contra hstatus
    simp [answerErr, hstatus] at hphase
  | fail err => exact ⟨by simp, hok.answered⟩
  | @release q err =>
    refine ⟨fun hphase => hok.success ?_, hok.answered⟩
    simpa using hphase

end

theorem Sound.step (hchecked : tool.Checked) {s s' : State} {l : Label} (h : Sound tool s)
    (hst : (machine tool).step s l = some s') : Sound tool s' := by
  obtain ⟨env, body, rfl, rfl⟩ | ⟨i, j, j', stores', hi, hmoves, rfl⟩ := step_cases hst
  · exact ⟨h.length, h.held, fun i j hj => (h.jobs i j hj).mono fun _ _ => mem_regStore_handleWatch⟩
  · refine ⟨by rw [List.length_set, h.length], ?_, ?_⟩
    · have hsum := List.sum_map_set Job.holds hi j'
      have hheld := h.held
      simp only [State.held] at hheld ⊢
      rcases hmoves.holds with hle | ⟨hfree, hone, hzero⟩
      · omega
      · rw [State.held] at hfree
        omega
    · intro k job hk
      rcases List.getElem?_set_cases hk with ⟨rfl, rfl⟩ | ⟨-, hk⟩
      · exact hmoves.jobOk hchecked (h.jobs k j hi)
      · exact (h.jobs k job hk).mono fun _ _ => hmoves.mem

theorem sound_of_reachable (hchecked : tool.Checked) {stores : Stores} {s : State}
    (h : (machine tool).Reachable (.init stores tool.txids) s) : Sound tool s :=
  h.invariant (sound_init stores) fun _ _ _ hs _ hst => hs.step hchecked hst

/-! ### The exit code -/

theorem result?_eq_some_iff {j : Job} {err : Option String} :
    j.result? = some err ↔ j.phase = .done err := by
  obtain ⟨p, q⟩ := j
  cases p <;> simp [Job.result?]

theorem all_done_of_length {s : State}
    (h : ¬ (s.jobs.filterMap Job.result?).length < s.jobs.length) :
    ∀ j ∈ s.jobs, j.result?.isSome = true := by
  have hle := List.length_filterMap_le Job.result? s.jobs
  exact List.filterMap_length_eq_length.1 (by omega)

theorem done_of_exitCode_zero {s : State} (h : s.exitCode = some 0) :
    ∀ j ∈ s.jobs, j.phase = .done none := by
  simp only [State.exitCode] at h
  split_ifs at h with hwait hfailed
  · simp at h
  · intro j hj
    obtain ⟨err, herr⟩ := Option.isSome_iff_exists.1 (all_done_of_length hwait j hj)
    have hnone : err = none := by
      have hall : ∀ e ∈ s.jobs.filterMap Job.result?, e.isNone = true := by
        refine List.countP_eq_length.1 (le_antisymm List.countP_le_length ?_)
        have hle := List.length_filterMap_le Job.result? s.jobs
        omega
      exact Option.isNone_iff_eq_none.1 (hall err (List.mem_filterMap.2 ⟨j, hj, herr⟩))
    rwa [hnone, result?_eq_some_iff] at herr

theorem Sound.registered {s : State} (h : Sound tool s) (hexit : s.exitCode = some 0) :
    ∀ t ∈ tool.txids, tool.flags.callback ∈ s.stores.regStore t := by
  intro t ht
  obtain ⟨i, hi⟩ := List.mem_iff_getElem?.1 ht
  obtain ⟨j, hj⟩ : ∃ j, s.jobs[i]? = some j := by
    have hlt := (List.getElem?_eq_some_iff.1 hi).1
    rw [← h.length] at hlt
    exact ⟨_, List.getElem?_eq_getElem hlt⟩
  have hok := h.jobs i j hj
  obtain ⟨r, hr, hstatus⟩ :=
    hok.success (.inr (done_of_exitCode_zero hexit j (List.mem_of_getElem? hj)))
  obtain ⟨t', ht', hanswered⟩ := hok.answered r hr
  obtain rfl := Option.some.inj (hi.symm.trans ht')
  exact hanswered.registered hstatus

/-- The txids that are registered have been checked, and are those of the flag or the file. -/
theorem start_register {flags : Flags} {input : String → Input} {txids : List String} {slots : ℕ}
    (h : start flags input = .register txids slots) :
    flags.callback ≠ "" ∧ (∀ t ∈ txids, txidRegexMatch t = true) ∧
      (flags.file = "" ∧ txids = [flags.txid] ∧ slots = 1 ∨
        flags.file ≠ "" ∧ loadTxids (input flags.file) = .ok txids ∧
          (slots : ℤ) = flags.concurrency) := by
  unfold start at h
  split_ifs at h with hurl hnone hboth hsingle
  · cases hvalid : validateTxid flags.txid with
    | some err => simp [hvalid] at h
    | none =>
      simp only [hvalid, Start.register.injEq] at h
      obtain ⟨rfl, rfl⟩ := h
      refine ⟨fun hcb => hurl (.inr hcb), ?_, .inl ⟨?_, rfl, rfl⟩⟩
      · simpa using validateTxid_eq_none_iff.1 hvalid
      · exact not_not.1 fun hfile => hboth ⟨hsingle, hfile⟩
  · cases hload : loadTxids (input flags.file) with
    | error err => simp [hload] at h
    | ok ids => cases ids with
      | nil => simp [hload] at h
      | cons t ts => simp [hload] at h
  · cases hload : loadTxids (input flags.file) with
    | error err => simp [hload] at h
    | ok ids => cases ids with
      | nil => simp [hload] at h
      | cons t ts =>
        simp only [hload, Start.register.injEq] at h
        obtain ⟨rfl, rfl⟩ := h
        have hfile : flags.file ≠ "" := fun hfile => hnone ⟨not_not.1 hsingle, hfile⟩
        exact ⟨fun hcb => hurl (.inr hcb), match_of_loadTxids hload, .inr ⟨hfile, rfl, by omega⟩⟩

/-- The txid is the one of the flag, or one of the file. -/
def Named (flags : Flags) (input : String → Input) (t : String) : Prop :=
  flags.file = "" ∧ t = flags.txid ∨
  flags.file ≠ "" ∧ ∃ ls : List FileLine, ls ≠ [] ∧ (∀ l ∈ ls, l.WellFormed) ∧
    input flags.file = .text (fileText ls) none ∧ ∃ l ∈ ls, l.txid? = some t

theorem Named.mem {flags : Flags} {input : String → Input} {txids : List String} {slots : ℕ}
    {t : String} (h : Named flags input t) (hstart : start flags input = .register txids slots) :
    t ∈ txids := by
  obtain ⟨-, -, ⟨hfile, rfl, -⟩ | ⟨hfile, hload, -⟩⟩ := start_register hstart
  · rcases h with ⟨-, rfl⟩ | ⟨hnofile, -⟩
    · exact List.mem_singleton_self _
    · exact absurd hfile hnofile
  · rcases h with ⟨hnofile, -⟩ | ⟨-, ls, hne, hls, hinput, l, hl, ht⟩
    · exact absurd hnofile hfile
    · rw [hinput, loadTxids_fileText hne hls] at hload
      rw [← Except.ok.inj hload]
      exact List.mem_filterMap.2 ⟨l, hl, ht⟩

theorem countP_posting_le_held (s : State) :
    s.jobs.countP (fun j => j.phase = .posting) ≤ s.held := by
  rw [State.held]
  induction s.jobs with
  | nil => simp
  | cons j jobs ih =>
    have hone : (if decide (j.phase = .posting) = true then 1 else 0) ≤ j.holds := by
      split_ifs with hposting
      · rw [Job.holds, of_decide_eq_true hposting]
      · exact Nat.zero_le _
    rw [List.countP_cons, List.map_cons, List.sum_cons]
    omega

def sampleTxid : String := "aaaaaaaaaaaaaaaaaaaaaaaaaaaaaaaaaaaaaaaaaaaaaaaaaaaaaaaaaaaaaaaa"

/-- A file with a comment and an indented txid. -/
def sampleLines : List FileLine :=
  [.comment [] [' ', 'a'], .txid ['\t'] sampleTxid ['\r'], .blank []]

def sampleFlags (concurrency : ℤ) : Flags := ⟨"http://h/", "http://a/cb", "", "f", concurrency⟩

def sampleInput (_ : String) : Input := .text (fileText sampleLines) none

/-- A step of a goroutine, and not of the server. -/
def Label.isClient : Label → Bool
  | .handle _ _ | .other _ _ => false
  | .acquire _ | .receive _ | .fail _ _ | .release _ => true

/-- How many steps a goroutine has still to take. -/
def Phase.left : Phase → ℕ
  | .waiting => 3
  | .posting => 2
  | .returned _ => 1
  | .done _ => 0

def State.left (s : State) : ℕ := (s.jobs.map fun j => j.phase.left).sum

/-- No goroutine can take a step. -/
def Stuck (tool : Tool) (s : State) : Prop :=
  ∀ l : Label, l.isClient = true → (machine tool).step s l = none

theorem Moves.left {s : State} {i : ℕ} {l : Label} {j j' : Job} {stores' : Stores}
    (h : Moves tool s i l j j' stores') :
    (if l.isClient then 1 else 0) + j'.phase.left ≤ j.phase.left := by
  cases h with
  | acquire hfree =>
    cases herr : tool.requestErr (target tool.flags.url) with
    | some err => simp [Tool.posted, herr, Label.isClient, Phase.left]
    | none => simp [Tool.posted, herr, Label.isClient, Phase.left]
  | handle env htxid => simp [Label.isClient]
  | receive => simp [Label.isClient, Phase.left]
  | fail err => simp [Label.isClient, Phase.left]
  | release => simp [Label.isClient, Phase.left]

theorem left_step {s s' : State} {l : Label} (h : (machine tool).step s l = some s') :
    (if l.isClient then 1 else 0) + s'.left ≤ s.left := by
  obtain ⟨env, body, rfl, rfl⟩ | ⟨i, j, j', stores', hi, hmoves, rfl⟩ := step_cases h
  · simp [Label.isClient, State.left]
  · have hsum := List.sum_map_set (fun j : Job => j.phase.left) hi j'
    have hleft := hmoves.left
    simp only [State.left]
    omega

theorem countP_isClient_le {s t : State} {ls : List Label}
    (h : (machine tool).exec s ls = some t) : ls.countP Label.isClient + t.left ≤ s.left := by
  induction ls generalizing s with
  | nil =>
    obtain rfl := Option.some.inj h
    simp
  | cons l ls ih =>
    obtain ⟨s', hst, hexec⟩ := Option.bind_eq_some_iff.1 h
    have hrest := ih hexec
    have hone := left_step hst
    rw [List.countP_cons]
    omega

theorem Stuck.phase {s : State} (h : Stuck tool s) {i : ℕ} {j : Job} (hi : s.jobs[i]? = some j) :
    j.phase = .waiting ∧ tool.slots ≤ s.held ∨ ∃ err, j.phase = .done err := by
  obtain ⟨p, q⟩ := j
  cases p with
  | waiting =>
    have hacquire := h (.acquire i) rfl
    simp only [machine, step, hi, ite_eq_right_iff, reduceCtorEq, imp_false, not_lt] at hacquire
    exact .inl ⟨rfl, hacquire⟩
  | posting =>
    have hfail := h (.fail i "") rfl
    simp [machine, step, hi] at hfail
  | returned err =>
    have hrelease := h (.release i) rfl
    simp [machine, step, hi] at hrelease
  | done err => exact .inr ⟨err, rfl⟩

theorem isSome_exitCode_iff {s : State} :
    s.exitCode.isSome = true ↔ ∀ j ∈ s.jobs, j.result?.isSome = true := by
  have hle := List.length_filterMap_le Job.result? s.jobs
  rw [← List.filterMap_length_eq_length]
  simp only [State.exitCode]
  by_cases hwait : (s.jobs.filterMap Job.result?).length < s.jobs.length
  · rw [if_pos hwait]
    exact iff_of_false (by simp) (Nat.ne_of_lt hwait)
  · rw [if_neg hwait]
    exact iff_of_true rfl (by omega)

theorem not_moves_of_no_slots (hslots : tool.slots = 0) {s : State} {i : ℕ} {l : Label} {j' : Job}
    {stores' : Stores} : ¬ Moves tool s i l ⟨.waiting, .unsent⟩ j' stores' := by
  intro h
  cases h with
  | acquire hfree =>
    rw [hslots] at hfree
    exact absurd hfree (Nat.not_lt_zero _)

theorem waiting_of_no_slots (hslots : tool.slots = 0) {stores : Stores} {s : State}
    {ls : List Label} (hexec : (machine tool).exec (.init stores tool.txids) ls = some s) :
    s.jobs = tool.txids.map fun _ => ⟨.waiting, .unsent⟩ := by
  refine LTS.exec_invariant (I := fun s => s.jobs = tool.txids.map fun _ => ⟨.waiting, .unsent⟩)
    ?_ rfl hexec
  intro s l s' hs hst
  obtain ⟨env, body, rfl, rfl⟩ | ⟨i, j, j', stores', hi, hmoves, rfl⟩ := step_cases hst
  · exact hs
  · have hj : j = ⟨.waiting, .unsent⟩ := by
      rw [hs, List.getElem?_map, Option.map_eq_some_iff] at hi
      obtain ⟨t, -, rfl⟩ := hi
      rfl
    exact absurd (hj ▸ hmoves) (not_moves_of_no_slots hslots)

end WatchTool

end MerkleService
