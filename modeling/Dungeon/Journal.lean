import Dungeon.FakeHttpd

/-!
# The journal of the HTTP room (`modules/fake_httpd/mod.c`)

Every call of the imp, and its deletion, adds a line to the journal, which is an array of
`BUFSIZE` bytes. How many calls there are, and what they come to, is up to the peer.

- `echoDelete`, `life`: the whole life of an imp, up to and with its deletion.
- `Outcome`, `Course`: what each call comes to, told from the kernel's answers alone.
- `entryChars`, `Course.chars`: the characters that a call of each kind adds, and the calls of a
  life together.
- `takes_echoDriver`: the imp follows the course, and each call has an outcome exactly when
  there is room for its characters.
- `journal_bounded_iff`: the journal stays in its array exactly in the lives whose calls, by
  number and kind, come to less than `BUFSIZE` characters with the two lines at the ends.
-/

namespace Dungeon

namespace FakeHttpd

/-- The line of `echo_delete`. An `int` is the only part of it that varies, so it fits its own
array `log`. -/
def deleteLine (delta : ℤ) : String :=
  "[+" ++ toString delta ++ "s] echo_delete() conn_tcp_close_nb(conn) ."

/-- `echo_delete`, up to the `free` of the memory. -/
def echoDelete (m : EchoerMemory) (delta : ℤ) : Option EchoerMemory :=
  (strcat m.memoirs (deleteLine delta)).map fun memoirs => { m with memoirs := memoirs }

/-- The life of an imp after `echo_new`: calls of `echo_driver`, and `echo_delete`. -/
def life (m : EchoerMemory) (cs : List Call) (delta : ℤ) : Option EchoerMemory :=
  (httpdRuns.exec Machine.Always m cs).bind fun m => echoDelete m delta

/-! ## The course of a life -/

/-- What a call comes to. -/
inductive Outcome where
  | timedOut
  | eof
  | sleep
  | failed (errText : String)
  | received (n : ℕ)
  | prepared
  /-- bytes sent, and whether nothing is left -/
  | sent (n : ℕ) (all : Bool)
  | exception
  | nothing

/-- Where an imp is, and what it has left to send. -/
structure Course where
  state : State
  header : ℕ
  body : ℕ

/-- An imp before its first call. -/
def Course.start : Course := ⟨.recv, 0, 0⟩

/-- What receiving comes to. -/
def recvOutcome (c : Call) : Outcome :=
  if c.timedOut || c.ioErr then .timedOut
  else
    match c.recv with
    | .data bytes => .received bytes.length
    | .eof => .eof
    | .error _ => if c.recv.again then .sleep else .failed c.errText

/-- What sending comes to, with `left` bytes to go. -/
def sendOutcome (left : ℕ) (c : Call) : Outcome :=
  if c.timedOut || c.ioErr then .timedOut
  else
    match c.send with
    | .taken n => .sent n (n = left)
    | .failed _ _ => if c.send.again then .sleep else .failed c.errText

/-- What a call comes to in each state. -/
def Course.outcome (k : Course) (c : Call) : Outcome :=
  match k.state with
  | .recv => recvOutcome c
  | .prepareHeader => .prepared
  | .sendHeader => sendOutcome k.header c
  | .sendBody => sendOutcome k.body c
  | .ex => .exception
  | .term => .nothing

/-- Where that takes the imp. -/
def Course.after (k : Course) : Outcome → Course
  | .timedOut | .failed _ => { k with state := .ex }
  | .eof | .exception => { k with state := .term }
  | .sleep | .nothing => k
  | .received n => { k with state := .prepareHeader, body := n }
  | .prepared => { k with state := .sendHeader, header := (headerText k.body).length }
  | .sent n all =>
    if k.state = .sendHeader then
      { k with header := k.header - n, state := if all then .sendBody else .sendHeader }
    else { k with body := k.body - n, state := if all then .term else .sendBody }

/-- The kernel's answer to a call fits what the imp asks for. -/
def Course.Allows (k : Course) (c : Call) : Prop :=
  (k.state = .recv → c.recv.Possible bufsize) ∧
  (k.state = .sendHeader → c.send.Possible k.header) ∧
  (k.state = .sendBody → c.send.Possible (minSize paddingDataSize k.body))

/-- So do the answers to all calls of a life. -/
def Course.AllowsAll (k : Course) : List Call → Prop
  | [] => True
  | c :: cs => k.Allows c ∧ (k.after (k.outcome c)).AllowsAll cs

/-! ## Characters -/

/-- The characters of a decimal number. -/
def digits (z : ℤ) : ℕ := (toString z).length

/-- The characters of a state's name in the journal. -/
def nameChars : State → ℕ
  | .recv => 7
  | .prepareHeader => 17
  | .sendHeader => 14
  | .sendBody => 12
  | .ex => 5
  | .term => 0

/-- The characters of the remark on what a call comes to. -/
def remarkChars (s : State) : Outcome → ℕ
  | .timedOut => if s = .recv then 11 else 20
  | .eof => 5
  | .sleep => 7
  | .failed errText => 9 + errText.length
  | .received _ | .prepared => 4
  | .sent n all => digits n + if all then 17 else 20
  | .exception => 19
  | .nothing => 0

/-- The characters that a call of each kind adds. -/
def entryChars (s : State) (o : Outcome) (delta : ℤ) : ℕ :=
  if s = .term then 0 else nameChars s + 5 + digits delta + remarkChars s o

/-- The characters that the calls of a life add. -/
def Course.chars (k : Course) : List Call → ℕ
  | [] => 0
  | c :: cs => entryChars k.state (k.outcome c) c.delta + (k.after (k.outcome c)).chars cs

/-- The characters that `echo_new` writes. -/
def openingChars (impId : ℤ) (ipstr : String) (port delta : ℤ) : ℕ :=
  min (bufsize - 1) (18 + digits impId + ipstr.length + digits port + digits delta)

/-- The characters that `echo_delete` adds. -/
def closingChars (delta : ℤ) : ℕ := 44 + digits delta

/-! ## What one call does -/

/-- An imp on its course. -/
structure Follows (m : EchoerMemory) (k : Course) : Prop where
  state : m.state = k.state
  header : m.state = .sendHeader → m.headerLen = k.header
  body : m.length = k.body

/-- A call has an outcome exactly when the journal has room for `n` more characters, and then
adds them and brings the imp to `k`. -/
structure Takes (m : EchoerMemory) (k : Course) (n : ℕ)
    (x : Option (BitVec 32 × EchoerMemory)) : Prop where
  isSome_iff : x.isSome ↔ m.memoirs.val.length + n < bufsize
  after : ∀ r, x = some r → Follows r.2 k ∧ r.2.memoirs.val.length = m.memoirs.val.length + n

variable {m m₁ : EchoerMemory} {k : Course} {c : Call} {n : ℕ}

theorem strcat_isSome {t : Memoirs} {log : String} :
    (strcat t log).isSome ↔ t.val.length + log.length < bufsize := by
  rw [← String.length_toList, ← List.length_append]
  unfold strcat
  split
  next hfit => exact iff_of_true rfl hfit
  next hfit => exact iff_of_false Bool.false_ne_true hfit

theorem length_strcat {t t' : Memoirs} {log : String} (h : strcat t log = some t') :
    t'.val.length = t.val.length + log.length := by
  unfold strcat at h
  split at h
  next =>
    obtain rfl := Option.some.inj h
    rw [List.length_append, String.length_toList]
  next => cases h

theorem length_stamp (place text : String) (c : Call) :
    (stamp place c text).length = place.length + 5 + digits c.delta + text.length := by
  unfold stamp
  simp only [String.length_append]
  show place.length + 2 + digits c.delta + 3 + text.length = _
  omega

/-- A call that ends in a line of `n` characters. -/
theorem takes_note {place text : String} {f : EchoerMemory → BitVec 32 × EchoerMemory}
    (hm : m₁.memoirs = m.memoirs)
    (hn : place.length + 5 + digits c.delta + text.length = n)
    (hf : ∀ t, (f { m₁ with memoirs := t }).2.memoirs = t ∧
      Follows (f { m₁ with memoirs := t }).2 k) :
    Takes m k n ((m₁.note place c text).map f) := by
  rw [← length_stamp] at hn
  subst hn
  constructor
  · rw [Option.isSome_map, EchoerMemory.note, Option.isSome_map, strcat_isSome, hm]
  · intro r hr
    obtain ⟨m₂, hm₂, rfl⟩ := Option.map_eq_some_iff.mp hr
    obtain ⟨t, ht, rfl⟩ := Option.map_eq_some_iff.mp hm₂
    obtain ⟨hmem, hfollows⟩ := hf t
    refine ⟨hfollows, ?_⟩
    rw [hmem, length_strcat ht, hm]

theorem length_error (errText : String) :
    ("error: " ++ errText ++ "->").length = 9 + errText.length := by
  rw [String.length_append, String.length_append]
  show 7 + errText.length + 2 = 9 + errText.length
  omega

/-- A call that failed: the imp sleeps, or has an exception. -/
theorem takes_failed (hf : Follows m k) (conn : Conn) {place : String} {s : State} (again : Bool)
    (hs : s ≠ .term) (hplace : place.length = nameChars s) :
    Takes m (k.after (if again then .sleep else .failed c.errText))
      (entryChars s (if again then .sleep else .failed c.errText) c.delta)
      (if again then
          (EchoerMemory.note { m with conn := conn } place c "sleep->").map fun m => (toBlock, m)
        else
          (EchoerMemory.note { m with conn := conn } place c ("error: " ++ c.errText ++ "->")).map
            fun m => (toRun, { m with state := .ex })) := by
  unfold entryChars
  rw [if_neg hs, ← hplace]
  cases again with
  | true => exact takes_note rfl rfl fun t => ⟨rfl, hf.state, hf.header, hf.body⟩
  | false =>
    refine takes_note rfl ?_ fun t => ⟨rfl, rfl, nofun, hf.body⟩
    rw [length_error]
    rfl

theorem takes_driveRecv (hf : Follows m k) (hc : c.recv.Possible bufsize) :
    Takes m (k.after (recvOutcome c)) (entryChars .recv (recvOutcome c) c.delta)
      (driveRecv m c) := by
  unfold driveRecv recvOutcome
  split
  next => exact takes_note rfl rfl fun t => ⟨rfl, rfl, nofun, hf.body⟩
  next =>
    cases hres : c.recv with
    | eof => exact takes_note rfl rfl fun t => ⟨rfl, rfl, nofun, hf.body⟩
    | error errno =>
      rw [hres] at hc
      have hneg : (-errno : ℤ) < 0 := by
        have hpos : 0 < errno := hc
        omega
      dsimp only [connTcpRecvNb]
      rw [if_neg hneg.ne, if_pos hneg]
      exact takes_failed hf _ _ nofun rfl
    | data bytes =>
      rw [hres] at hc
      obtain ⟨hpos, hle⟩ := hc
      have hsmall : bytes.length < sizeMod := hle.trans_lt (by decide)
      dsimp only [connTcpRecvNb]
      rw [if_neg (by omega), if_neg (by omega)]
      refine takes_note rfl rfl fun t => ⟨rfl, rfl, nofun, ?_⟩
      show (bytes.length : ℤ).toNat % sizeMod = bytes.length
      rw [Int.toNat_natCast, Nat.mod_eq_of_lt hsmall]

theorem takes_drivePrepareHeader (hf : Follows m k) (hle : m.length ≤ bufsize) :
    Takes m (k.after .prepared) (entryChars .prepareHeader .prepared c.delta)
      (drivePrepareHeader m c) := by
  obtain ⟨-, hlt⟩ := length_headerText hle
  unfold drivePrepareHeader
  dsimp only
  rw [if_neg hlt.ne]
  refine takes_note rfl rfl fun t => ⟨rfl, rfl, fun _ => ?_, hf.body⟩
  exact congrArg (fun n => (headerText n).length) hf.body

theorem length_sent (n : ℕ) {text : String} :
    (toString (n : ℤ) ++ text).length = digits n + text.length :=
  String.length_append _ _

theorem takes_driveSendHeader (hf : Follows m k) (hms : m.state = .sendHeader)
    (hc : c.send.Possible m.headerLen) (hle : m.headerLen ≤ bufsize) :
    Takes m (k.after (sendOutcome k.header c))
      (entryChars .sendHeader (sendOutcome k.header c) c.delta) (driveSendHeader m c) := by
  have hks : k.state = .sendHeader := hf.state.symm.trans hms
  have hheader : k.header = m.headerLen := (hf.header hms).symm
  unfold driveSendHeader sendOutcome
  split
  next => exact takes_note rfl rfl fun t => ⟨rfl, rfl, nofun, hf.body⟩
  next =>
    cases hres : c.send with
    | failed ret errno =>
      rw [hres] at hc
      have hret : ret ≤ 0 := hc
      dsimp only [connTcpSendNb]
      rw [if_pos hret]
      exact takes_failed hf _ _ nofun rfl
    | taken n =>
      rw [hres] at hc
      obtain ⟨hn, hnle⟩ := hc
      dsimp only [connTcpSendNb]
      rw [if_neg (by omega), Int.toNat_natCast, sizeSub_eq hnle hle, hheader]
      unfold Course.after
      dsimp only
      rw [if_pos hks]
      by_cases hall : n = m.headerLen
      · rw [if_pos (show m.headerLen - n = 0 by omega), decide_eq_true hall]
        refine takes_note rfl ?_ fun t => ⟨rfl, rfl, nofun, hf.body⟩
        rw [length_sent]
        rfl
      · rw [if_neg (show ¬ m.headerLen - n = 0 by omega), decide_eq_false hall]
        refine takes_note rfl ?_ fun t => ⟨rfl, hms, fun _ => ?_, hf.body⟩
        · rw [length_sent]
          rfl
        · rw [hheader]

theorem takes_driveSendBody (hf : Follows m k) (hms : m.state = .sendBody)
    (hc : c.send.Possible (minSize paddingDataSize m.length)) (hle : m.length ≤ bufsize) :
    Takes m (k.after (sendOutcome k.body c))
      (entryChars .sendBody (sendOutcome k.body c) c.delta) (driveSendBody m c) := by
  have hks : k.state = .sendBody := hf.state.symm.trans hms
  have hbody : k.body = m.length := hf.body.symm
  unfold driveSendBody sendOutcome
  split
  next => exact takes_note rfl rfl fun t => ⟨rfl, rfl, nofun, hf.body⟩
  next =>
    cases hres : c.send with
    | failed ret errno =>
      rw [hres] at hc
      have hret : ret ≤ 0 := hc
      dsimp only [connTcpSendNb]
      rw [if_pos hret]
      exact takes_failed hf _ _ nofun rfl
    | taken n =>
      rw [hres] at hc
      obtain ⟨hn, hmin⟩ := hc
      have hnle : n ≤ m.length := by
        unfold minSize at hmin
        split at hmin <;> omega
      dsimp only [connTcpSendNb]
      rw [if_neg (by omega), Int.toNat_natCast, sizeSub_eq hnle hle, hbody]
      unfold Course.after
      dsimp only
      rw [if_neg (by rw [hks]; nofun)]
      by_cases hall : n = m.length
      · rw [if_pos (show m.length - n ≤ 0 by omega), decide_eq_true hall]
        refine takes_note rfl ?_ fun t => ⟨rfl, rfl, nofun, ?_⟩
        · rw [length_sent]
          rfl
        · rw [hbody]
      · rw [if_neg (show ¬ m.length - n ≤ 0 by omega), decide_eq_false hall]
        refine takes_note rfl ?_ fun t => ⟨rfl, hms, fun h => ?_, ?_⟩
        · rw [length_sent]
          rfl
        · cases hms.symm.trans h
        · rw [hbody]

/-- What is allowed on the course is possible for an imp that follows it. -/
theorem Follows.possible (hf : Follows m k) (hc : k.Allows c) : c.Possible m := by
  obtain ⟨hrecv, hheader, hbody⟩ := hc
  refine ⟨fun hs => hrecv (hf.state ▸ hs), fun hs => ?_, fun hs => ?_⟩
  · rw [hf.header hs]
    exact hheader (hf.state ▸ hs)
  · rw [hf.body]
    exact hbody (hf.state ▸ hs)

/-- **A call follows the course**, if there is room for its line. -/
theorem takes_echoDriver (hp : Progress m m.state) (hf : Follows m k) (hc : c.Possible m) :
    Takes m (k.after (k.outcome c)) (entryChars k.state (k.outcome c) c.delta)
      (echoDriver m c) := by
  unfold echoDriver Course.outcome
  rw [← hf.state]
  cases hs : m.state with
  | recv => exact takes_driveRecv hf (hc.1 hs)
  | prepareHeader =>
    rw [hs] at hp
    exact takes_drivePrepareHeader hf hp.2.2.2
  | sendHeader =>
    rw [hs] at hp
    obtain ⟨-, -, hfit, -⟩ := hp
    exact takes_driveSendHeader hf hs (hc.2.1 hs) ((Nat.le_add_left _ _).trans hfit)
  | sendBody =>
    rw [hs] at hp
    obtain ⟨-, -, -, -, -, hle⟩ := hp
    exact takes_driveSendBody hf hs (hc.2.2 hs) hle
  | ex => exact takes_note rfl rfl fun t => ⟨rfl, rfl, nofun, hf.body⟩
  | term =>
    -- the journal is as it was, so it has its room
    refine ⟨iff_of_true rfl m.memoirs.property, fun r hr => ?_⟩
    obtain rfl := Option.some.inj hr
    exact ⟨⟨hf.state, hf.header, hf.body⟩, rfl⟩

/-! ## Whole lives -/

/-- The calls of a life have outcomes as long as there is room for all their characters. -/
theorem exec_takes {cs : List Call} (hp : Progress m m.state) (hf : Follows m k)
    (hcs : k.AllowsAll cs) :
    ((httpdRuns.exec Machine.Always m cs).isSome ↔
      m.memoirs.val.length + k.chars cs < bufsize) ∧
    ∀ m', httpdRuns.exec Machine.Always m cs = some m' →
      m'.memoirs.val.length = m.memoirs.val.length + k.chars cs := by
  induction cs generalizing m k with
  | nil =>
    refine ⟨iff_of_true rfl m.memoirs.property, fun m' hm => ?_⟩
    obtain rfl := Option.some.inj hm
    rfl
  | cons c cs ih =>
    obtain ⟨hc, hrest⟩ := hcs
    have hposs : c.Possible m := hf.possible hc
    obtain ⟨hroom, hafter⟩ := takes_echoDriver hp hf hposs
    have hstep : httpdRuns.step m c = (echoDriver m c).map Prod.snd := if_pos hposs
    rw [Machine.exec, if_pos (show Machine.Always m c from trivial), hstep, Course.chars,
      ← Nat.add_assoc]
    cases hdrive : echoDriver m c with
    | none =>
      rw [hdrive] at hroom
      have hfull := mt hroom.mpr Bool.false_ne_true
      exact ⟨iff_of_false Bool.false_ne_true (by omega), fun m' hm => by cases hm⟩
    | some r =>
      obtain ⟨hfollows, hlength⟩ := hafter r hdrive
      rw [← hlength]
      exact ih (hp.step hposs hdrive) hfollows hrest

theorem length_deleteLine (delta : ℤ) : (deleteLine delta).length = closingChars delta := by
  unfold deleteLine
  rw [String.length_append, String.length_append]
  show 2 + digits delta + 42 = 44 + digits delta
  omega

/-- So has the deletion. -/
theorem life_isSome {cs : List Call} {delta : ℤ} (hp : Progress m m.state) (hf : Follows m k)
    (hcs : k.AllowsAll cs) :
    (life m cs delta).isSome ↔
      m.memoirs.val.length + k.chars cs + closingChars delta < bufsize := by
  obtain ⟨hroom, hafter⟩ := exec_takes hp hf hcs
  unfold life
  cases hexec : httpdRuns.exec Machine.Always m cs with
  | none =>
    rw [hexec] at hroom
    have hfull := mt hroom.mpr Bool.false_ne_true
    exact iff_of_false Bool.false_ne_true (by omega)
  | some m' =>
    rw [← hafter m' hexec, ← length_deleteLine, ← strcat_isSome]
    exact Bool.eq_iff_iff.mp Option.isSome_map

variable {m₀ : EchoerMemory} {impId port delta : ℤ} {ipstr : String}

theorem progress_echoNew (hfresh : m₀.conn = .fresh) :
    Progress (echoNew m₀ impId ipstr port delta) .recv :=
  ⟨congrArg Conn.received hfresh, congrArg Conn.accepted hfresh⟩

theorem follows_echoNew : Follows (echoNew m₀ impId ipstr port delta) .start :=
  ⟨rfl, nofun, rfl⟩

theorem length_echoNew : (echoNew m₀ impId ipstr port delta).memoirs.val.length
    = openingChars impId ipstr port delta := by
  show (List.take (bufsize - 1) _).length = _
  rw [List.length_take, String.length_toList]
  unfold openingChars
  congr 1
  simp only [String.length_append]
  show 4 + digits impId + 6 + ipstr.length + 1 + digits port + 3 + digits delta + 4 = _
  omega

/-- **The journal stays in its array** exactly in the lives whose calls have few enough
characters. Each kind of call adds a number of its own, with the digits of the time and of the
bytes sent and the text of an error. The calls have outcomes when the opening line and their
characters are less than `BUFSIZE` together, and the deletion has one when its characters fit
as well. -/
theorem journal_bounded_iff (m₀ : EchoerMemory) (hfresh : m₀.conn = .fresh) (impId : ℤ)
    (ipstr : String) (port delta : ℤ) (cs : List Call) (hcs : Course.start.AllowsAll cs) :
    ((httpdRuns.exec Machine.Always (echoNew m₀ impId ipstr port delta) cs).isSome ↔
      openingChars impId ipstr port delta + Course.start.chars cs < bufsize) ∧
    ∀ delta', (life (echoNew m₀ impId ipstr port delta) cs delta').isSome ↔
      openingChars impId ipstr port delta + Course.start.chars cs + closingChars delta'
        < bufsize := by
  have hp : Progress (echoNew m₀ impId ipstr port delta) .recv := progress_echoNew hfresh
  have hlength : (echoNew m₀ impId ipstr port delta).memoirs.val.length
      = openingChars impId ipstr port delta := length_echoNew
  rw [← hlength]
  exact ⟨(exec_takes hp follows_echoNew hcs).1,
    fun _ => life_isSome hp follows_echoNew hcs⟩

/-- A peer that sends nothing. -/
def silence : Call := ⟨false, false, .error eagain, .failed (-1) eagain, 0, ""⟩

/-- An imp that is woken once, finds nothing, and is deleted. -/
theorem journal_bounded_iff_once :
    (life (echoNew blankMemory 1 "10.0.0.1" 80 0) [silence] 0).isSome :=
  ((journal_bounded_iff blankMemory rfl 1 "10.0.0.1" 80 0 [silence]
    ⟨⟨fun _ => by decide, nofun, nofun⟩, trivial⟩).2 0).mpr (by decide +kernel)

/-- A silent peer may be silent for ever, and every call adds twenty characters. -/
theorem silence_chars (n : ℕ) :
    Course.start.AllowsAll (List.replicate n silence) ∧
      Course.start.chars (List.replicate n silence) = 20 * n := by
  induction n with
  | zero => exact ⟨trivial, rfl⟩
  | succ n ih =>
    obtain ⟨hallows, hchars⟩ := ih
    refine ⟨⟨⟨fun _ => by decide, nofun, nofun⟩, hallows⟩, ?_⟩
    show 20 + Course.start.chars (List.replicate n silence) = 20 * (n + 1)
    rw [hchars]
    omega

/-- A peer that stays silent for long enough takes the journal out of its array. -/
theorem journal_overflows :
    ¬ ∀ (m₀ : EchoerMemory) (impId : ℤ) (ipstr : String) (port delta : ℤ) (cs : List Call)
      (delta' : ℤ), m₀.conn = .fresh → Course.start.AllowsAll cs →
      (life (echoNew m₀ impId ipstr port delta) cs delta').isSome := by
  intro hall
  obtain ⟨hallows, hchars⟩ := silence_chars bufsize
  have hlife := hall blankMemory 1 "10.0.0.1" 80 0 _ 0 rfl hallows
  have hroom := (life_isSome (progress_echoNew rfl) follows_echoNew hallows).mp hlife
  rw [hchars] at hroom
  omega

end FakeHttpd

end Dungeon
