import CppInAction.FFStamp
import CppInAction.UserInputEnds
import CppInAction.XDir

namespace CppInAction

namespace FFTask

/-- DEFAULTKEY. -/
def defaultKey : List UInt8 := bytes "1234567890abcdef1234567890abcdef"

/-- The loop that writes the secret key over the default one, up to the end of the shorter. -/
def overlayKey : List UInt8 → List UInt8 → List UInt8
  | _ :: key, b :: secret => b :: overlayKey key secret
  | key, _ => key

/-- The part of the command that cuts; none is an exception of stoi. -/
def cutText (data : TaskData) : Option (List UInt8) :=
  let begin := if data.beginSeconds = [] then [] else bytes " -ss " ++ data.beginSeconds
  if data.endSeconds = [] then some begin
  else do
    let finish ← stoi data.endSeconds
    let start ← stoi data.beginSeconds
    let segment := toInt32 (finish - start)
    some (begin ++ if 0 < segment then bytes " -t " ++ decimal segment else [])

def keyText (data : TaskData) : List UInt8 :=
  if data.secretKey = [] then []
  else if data.isEncrypt then
    bytes " -encryption_scheme cenc-aes-ctr -encryption_kid abcdef0123456789abcdef0123456789" ++
      bytes " -encryption_key " ++ overlayKey defaultKey data.secretKey ++ bytes " -c:v libx264 -c:a aac"
  else bytes " -decryption_key " ++ overlayKey defaultKey data.secretKey ++ bytes " -c copy"

/-- The program and its source. -/
def sourceText (data : TaskData) : List UInt8 :=
  (if data.taskType = bytes "play" then bytes "ffplay" else bytes "ffmpeg -y") ++ bytes " -i " ++ data.src

/-- The command that Start gives to exec_. -/
def command (data : TaskData) : Option (List UInt8) := do
  let cut ← cutText data
  some (sourceText data ++ cut ++ keyText data ++
    if data.taskType = bytes "cv" then 32 :: data.des else [])

end FFTask

/-- What std::filesystem answers, where none is an exception, and what running a command
makes of the world. -/
structure Files (ω : Type) where
  isDirectory : ω → List UInt8 → Option Bool
  entries : ω → List UInt8 → Option Directory
  createDirectory : ω → List UInt8 → Option ω
  run : ω → List UInt8 → ω

/-- The world with the commands that were started. -/
structure Desk (ω : Type) where
  world : ω
  started : List (List UInt8)

namespace XVideoInput

variable {ω : Type}

/-- task.Start, and the wait for its end. -/
def startTask (fs : Files ω) (desk : Desk ω) (data : TaskData) : Option (Desk ω) :=
  (FFTask.command data).map fun cmd => ⟨fs.run desk.world cmd, desk.started ++ [cmd]⟩

def ensureDir (fs : Files ω) (world : ω) (des : List UInt8) : Option ω := do
  if ← fs.isDirectory world des then some world else fs.createDirectory world des

/-- One turn of the loop over the files of a directory. -/
def convertFile (fs : Files ω) (data : TaskData) (desk : Desk ω) (file : XFile) : Option (Desk ω) := do
  let world ← ensureDir fs desk.world data.des
  startTask fs { desk with world := world } (fileData data file)

def convert (fs : Files ω) (data : TaskData) (desk : Desk ω) : Option (Desk ω) := do
  if ← fs.isDirectory desk.world data.src then
    let t ← fs.entries desk.world data.src
    (XDir.getFiles data.src t).foldlM (convertFile fs data) desk
  else startTask fs desk data

/-- A task: it sets task_type, and works on the desk. -/
def taskWith (taskType : List UInt8) (g : TaskData → Desk ω → Option (Desk ω)) : Callback (VideoState (Desk ω)) where
  run := fun c =>
    (g { c.state.data with taskType := taskType } c.state.world).map fun desk =>
      { c with state := ⟨{ c.state.data with taskType := taskType }, desk⟩ }
  consumes := by
    intro c d h
    obtain ⟨desk, _, rfl⟩ := Option.map_eq_some_iff.mp h
    exact Nat.le_refl _

def cv (fs : Files ω) : Callback (VideoState (Desk ω)) := taskWith (bytes "cv") (convert fs)

def play (fs : Files ω) : Callback (VideoState (Desk ω)) :=
  taskWith (bytes "play") fun data desk => startTask fs desk data

/-- The console input as Start sets it up. -/
def video (fs : Files ω) : UserInput (VideoState (Desk ω)) := console (cv fs) (play fs)

/-- Without an end nothing is computed; with one, both times write a number. -/
def TimesReadable (data : TaskData) : Prop :=
  data.endSeconds = [] ∨ ∃ start finish, Writes data.beginSeconds start ∧ Writes data.endSeconds finish

/-- The text is the decimal number n. -/
def IsDecimal (s : List UInt8) (n : Nat) : Prop := s ≠ [] ∧ (∀ b ∈ s, isDigit b = true) ∧ digitsNumber s = n

/-- For decimal times b < e, where an absent begin stands for 0, the command asks for e - b
seconds from b on. -/
def Asks (data : TaskData) (cmd : List UInt8) : Prop :=
  ∀ b e : Nat, data.beginSeconds = [] ∧ b = 0 ∨ IsDecimal data.beginSeconds b → IsDecimal data.endSeconds e → b < e →
    ∃ src tail, cmd = FFTask.sourceText { data with src := src } ++
      (if data.beginSeconds = [] then [] else bytes " -ss " ++ data.beginSeconds) ++
      bytes " -t " ++ decimal (e - b) ++ tail

theorem writes_of_decimal {s : List UInt8} {b : Nat} {n : Int} (h : IsDecimal s b) (hw : Writes s n) : n = b := by
  obtain ⟨hne, hdigit, rfl⟩ := h
  rw [← stoi_eq_some_iff, stoi_eq_some] at hw
  obtain ⟨d, rest, rfl⟩ := List.exists_cons_of_ne_nil hne
  have hd := hdigit d List.mem_cons_self
  have hdrop : (d :: rest).dropWhile isSpace = d :: rest :=
    List.dropWhile_cons_of_neg (by rw [(isSpace_digit hd).1]; exact Bool.false_ne_true)
  rw [hdrop, signed_digit hd] at hw
  have hvalue : digitsValue (d :: rest) = digitsNumber (d :: rest) := by
    rw [digitsValue, List.takeWhile_eq_self_iff.mpr hdigit]
    rfl
  have hn : n = 1 * (digitsValue (d :: rest) : Int) := hw.2.1
  omega

variable {fs : Files ω} {data : TaskData} {desk : Desk ω} {cmd : List UInt8}

theorem cutText_isSome (data : TaskData) : (FFTask.cutText data).isSome ↔ TimesReadable data := by
  unfold FFTask.cutText TimesReadable
  by_cases hend : data.endSeconds = []
  · simp [hend]
  · rw [if_neg hend]
    simp only [hend, false_or, ← stoi_eq_some_iff]
    cases hf : stoi data.endSeconds with
    | none => simp
    | some finish => cases hs : stoi data.beginSeconds <;> simp

theorem command_isSome (data : TaskData) : (FFTask.command data).isSome ↔ TimesReadable data := by
  rw [← cutText_isSome]
  unfold FFTask.command
  cases FFTask.cutText data <;> simp

/-- A command that can be composed asks for the right part. -/
theorem command_asks (h : FFTask.command data = some cmd) : Asks data cmd := by
  intro b e hb he hlt
  obtain ⟨cut, hcut, hcmd⟩ := Option.bind_eq_some_iff.mp h
  have hend : data.endSeconds ≠ [] := he.1
  unfold FFTask.cutText at hcut
  rw [if_neg hend] at hcut
  obtain ⟨finish, hfinish, hcut⟩ := Option.bind_eq_some_iff.mp hcut
  obtain ⟨start, hstart, hcut⟩ := Option.bind_eq_some_iff.mp hcut
  rw [stoi_eq_some_iff] at hfinish hstart
  have hfe := writes_of_decimal he hfinish
  have hsb : start = b := by
    rcases hb with ⟨hnil, _⟩ | hb
    · rw [hnil] at hstart
      exact absurd hstart (not_writes_nil start)
    · exact writes_of_decimal hb hstart
  have hsegment : toInt32 (finish - start) = e - b := by
    have hrange := hfinish.2
    rw [hfe, hsb]
    exact toInt32_of_nonneg (by omega) (by omega)
  have hpos : 0 < toInt32 (finish - start) := by omega
  dsimp only at hcut
  rw [if_pos hpos, hsegment] at hcut
  rw [← Option.some.inj hcmd, ← Option.some.inj hcut]
  refine ⟨data.src, FFTask.keyText data ++ if data.taskType = bytes "cv" then 32 :: data.des else [], ?_⟩
  simp only [List.append_assoc]

/-- The file-system calls for the files of a directory succeed, and the times can be read. -/
def Converts (fs : Files ω) (data : TaskData) : ω → List XFile → Prop
  | _, [] => True
  | world, file :: files => TimesReadable data ∧ ∃ world', ensureDir fs world data.des = some world' ∧
      ∀ cmd, FFTask.command (fileData data file) = some cmd → Converts fs data (fs.run world' cmd) files

/-- The file-system calls of a task succeed, and the times can be read where a command is
composed. -/
def Serviceable (fs : Files ω) (data : TaskData) (world : ω) : Prop :=
  if data.taskType = bytes "cv" then
    ∃ isDir, fs.isDirectory world data.src = some isDir ∧
      if isDir then ∃ t, fs.entries world data.src = some t ∧ Converts fs data world (XDir.getFiles data.src t)
      else TimesReadable data
  else TimesReadable data

/-- What a task has started asks for the right part. -/
def AsksFrom (data : TaskData) (desk desk' : Desk ω) : Prop :=
  ∃ cmds, desk'.started = desk.started ++ cmds ∧ ∀ cmd ∈ cmds, Asks data cmd

theorem startTask_iff (fs : Files ω) (desk : Desk ω) (data : TaskData) :
    (∃ desk', startTask fs desk data = some desk') ↔ TimesReadable data := by
  rw [← command_isSome, ← Option.isSome_iff_exists, startTask, Option.isSome_map]

theorem startTask_asks {desk' : Desk ω} (h : startTask fs desk data = some desk') : AsksFrom data desk desk' := by
  obtain ⟨cmd, hcmd, rfl⟩ := Option.map_eq_some_iff.mp h
  refine ⟨[cmd], rfl, fun c hc => ?_⟩
  rw [List.mem_singleton.mp hc]
  exact command_asks hcmd

theorem AsksFrom.trans {desk' desk'' : Desk ω} (h : AsksFrom data desk desk') (h' : AsksFrom data desk' desk'') :
    AsksFrom data desk desk'' := by
  obtain ⟨cmds, hcmds, hasks⟩ := h
  obtain ⟨cmds', hcmds', hasks'⟩ := h'
  refine ⟨cmds ++ cmds', ?_, fun cmd hcmd => ?_⟩
  · rw [hcmds', hcmds, List.append_assoc]
  · rcases List.mem_append.mp hcmd with hcmd | hcmd
    · exact hasks cmd hcmd
    · exact hasks' cmd hcmd

theorem convertFile_asks {file : XFile} {desk' : Desk ω} (h : convertFile fs data desk file = some desk') :
    AsksFrom data desk desk' := by
  obtain ⟨world, _, h⟩ := Option.bind_eq_some_iff.mp h
  obtain ⟨cmds, hcmds, hasks⟩ := startTask_asks h
  exact ⟨cmds, hcmds, hasks⟩

theorem convertFiles_asks {files : List XFile} {desk' : Desk ω}
    (h : files.foldlM (convertFile fs data) desk = some desk') : AsksFrom data desk desk' := by
  induction files generalizing desk with
  | nil =>
    cases Option.some.inj h
    exact ⟨[], (List.append_nil _).symm, fun cmd hcmd => by cases hcmd⟩
  | cons file files ih =>
    rw [List.foldlM_cons] at h
    obtain ⟨desk1, h1, h⟩ := Option.bind_eq_some_iff.mp h
    exact (convertFile_asks h1).trans (ih h)

theorem convertFiles_iff (fs : Files ω) (data : TaskData) (files : List XFile) (desk : Desk ω) :
    (∃ desk', files.foldlM (convertFile fs data) desk = some desk') ↔ Converts fs data desk.world files := by
  induction files generalizing desk with
  | nil => exact iff_of_true ⟨desk, rfl⟩ trivial
  | cons file files ih =>
    rw [Converts]
    constructor
    · rintro ⟨desk', h⟩
      rw [List.foldlM_cons] at h
      obtain ⟨desk1, h1, h⟩ := Option.bind_eq_some_iff.mp h
      obtain ⟨world, hworld, h1⟩ := Option.bind_eq_some_iff.mp h1
      refine ⟨(startTask_iff fs _ (fileData data file)).mp ⟨desk1, h1⟩, world, hworld, fun cmd hcmd => ?_⟩
      rw [startTask, hcmd] at h1
      cases Option.some.inj h1
      exact (ih _).mp ⟨desk', h⟩
    · rintro ⟨htimes, world, hworld, hrest⟩
      obtain ⟨cmd, hcmd⟩ := Option.isSome_iff_exists.mp ((command_isSome (fileData data file)).mpr htimes)
      obtain ⟨desk', h⟩ := (ih ⟨fs.run world cmd, desk.started ++ [cmd]⟩).mpr (hrest cmd hcmd)
      refine ⟨desk', ?_⟩
      rw [List.foldlM_cons, convertFile, hworld]
      simp only [Option.bind_eq_bind, Option.bind_some, startTask, hcmd, Option.map_some]
      exact h

theorem convert_asks {desk' : Desk ω} (h : convert fs data desk = some desk') : AsksFrom data desk desk' := by
  obtain ⟨isDir, _, h⟩ := Option.bind_eq_some_iff.mp h
  cases isDir with
  | true =>
    obtain ⟨t, _, h⟩ := Option.bind_eq_some_iff.mp h
    exact convertFiles_asks h
  | false => exact startTask_asks h

theorem convert_iff (fs : Files ω) (data : TaskData) (desk : Desk ω) :
    (∃ desk', convert fs data desk = some desk') ↔ ∃ isDir, fs.isDirectory desk.world data.src = some isDir ∧
      if isDir then
        ∃ t, fs.entries desk.world data.src = some t ∧ Converts fs data desk.world (XDir.getFiles data.src t)
      else TimesReadable data := by
  constructor
  · rintro ⟨desk', h⟩
    obtain ⟨isDir, hdir, h⟩ := Option.bind_eq_some_iff.mp h
    refine ⟨isDir, hdir, ?_⟩
    cases isDir with
    | true =>
      obtain ⟨t, ht, h⟩ := Option.bind_eq_some_iff.mp h
      exact ⟨t, ht, (convertFiles_iff fs data _ desk).mp ⟨desk', h⟩⟩
    | false => exact (startTask_iff fs desk data).mp ⟨desk', h⟩
  · rintro ⟨isDir, hdir, h⟩
    unfold convert
    rw [hdir]
    cases isDir with
    | true =>
      obtain ⟨t, ht, h⟩ := h
      obtain ⟨desk', h⟩ := (convertFiles_iff fs data _ desk).mpr h
      refine ⟨desk', ?_⟩
      simp only [Option.bind_eq_bind, Option.bind_some, if_true, ht]
      exact h
    | false => exact (startTask_iff fs desk data).mpr h

/-- What a task does with data of its type. -/
def perform (fs : Files ω) (data : TaskData) (desk : Desk ω) : Option (Desk ω) :=
  if data.taskType = bytes "cv" then convert fs data desk else startTask fs desk data

theorem perform_iff (fs : Files ω) (data : TaskData) (desk : Desk ω) :
    (∃ desk', perform fs data desk = some desk') ↔ Serviceable fs data desk.world := by
  unfold perform Serviceable
  by_cases hcv : data.taskType = bytes "cv"
  · rw [if_pos hcv, if_pos hcv]
    exact convert_iff fs data desk
  · rw [if_neg hcv, if_neg hcv]
    exact startTask_iff fs desk data

theorem perform_asks {desk' : Desk ω} (h : perform fs data desk = some desk') : AsksFrom data desk desk' := by
  unfold perform at h
  split at h
  next => exact convert_asks h
  next => exact startTask_asks h

theorem runTask_video (fs : Files ω) {taskType : List UInt8} (htask : taskType = bytes "cv" ∨ taskType = bytes "play")
    (c : Console (VideoState (Desk ω))) :
    (video fs).runTask taskType c = (perform fs { c.state.data with taskType := taskType } c.state.world).map fun desk =>
      { c with state := ⟨{ c.state.data with taskType := taskType }, desk⟩ } := by
  rcases htask with rfl | rfl
  · rfl
  · rfl

/-- The key functions return, and leave everything but the data and standard input alone. -/
theorem keyFunctions_return (fs : Files ω) (vec : List (List UInt8)) (c : Console (VideoState (Desk ω))) :
    ∃ d, (video fs).readKeys vec c = some d ∧ d.state.world = c.state.world := by
  refine UserInput.readKeys_returns (P := fun d : Console (VideoState (Desk ω)) => d.state.world = c.state.world) ?_ vec rfl
  intro key func value d hkey hd
  have hmem := mem_of_lookup hkey
  have hsecret : ∀ isEncrypt : Bool, ∃ e, (secret isEncrypt value).run d = some e ∧ e.state.world = c.state.world := by
    intro isEncrypt
    by_cases hnil : value = []
    · refine ⟨_, if_pos hnil, ?_⟩
      rw [← hd]
      change d.readWord.1.state.world = d.state.world
      unfold Console.readWord
      split
      next => rfl
      next => split <;> rfl
    · exact ⟨_, if_neg hnil, hd⟩
  simp only [keyTable, List.mem_cons, List.not_mem_nil, or_false, Prod.mk.injEq] at hmem
  rcases hmem with ⟨_, rfl⟩ | ⟨_, rfl⟩ | ⟨_, rfl⟩ | ⟨_, rfl⟩ | ⟨_, rfl⟩ | ⟨_, rfl⟩
  · exact ⟨_, rfl, hd⟩
  · exact ⟨_, rfl, hd⟩
  · exact hsecret true
  · exact hsecret false
  · exact ⟨_, rfl, hd⟩
  · exact ⟨_, rfl, hd⟩

/-- A turn with a line for one of the two tasks. -/
theorem turn_video (fs : Files ω) (c : Console (VideoState (Desk ω))) {taskType : List UInt8} {rest : List (List UInt8)}
    (hs : c.stopped = false) (hvec : splitString c.getline.2 = taskType :: rest)
    (htask : taskType = bytes "cv" ∨ taskType = bytes "play") :
    (video fs).turn c = UserInput.ofRun (((video fs).readKeys (taskType :: rest)
      { c.getline.1 with state := { c.getline.1.state with data := {} } }).bind ((video fs).runTask taskType)) := by
  rcases UserInput.turn_cases (video fs) c with ⟨hs', _⟩ | ⟨_, hnil, _⟩ | ⟨_, hexit, _⟩ | ⟨_, _, _, ⟨hnone, _⟩ | ⟨d, hd, ht⟩⟩
  · rw [hs] at hs'
    cases hs'
  · rw [hnil] at hvec
    cases hvec
  · rw [hexit, show splitString (bytes "exit") = [bytes "exit"] by decide] at hvec
    rw [← (List.cons.inj hvec).1] at htask
    exact absurd htask (by decide)
  · cases hnone
  · cases hd
    rw [ht, UserInput.command, hvec]

theorem getline_state {σ : Type} (c : Console σ) : c.getline.1.state = c.state := by
  unfold Console.getline
  split <;> rfl

/-- A line for one of the tasks is carried out without an exception, and its commands ask for
the seconds between the two times, exactly if it is serviceable. -/
theorem video_asks_iff (fs : Files ω) (c : Console (VideoState (Desk ω))) {taskType : List UInt8}
    {rest : List (List UInt8)} (hs : c.stopped = false) (hvec : splitString c.getline.2 = taskType :: rest)
    (htask : taskType = bytes "cv" ∨ taskType = bytes "play") :
    ∃ d, (video fs).readKeys (taskType :: rest) { c.getline.1 with state := { c.getline.1.state with data := {} } } = some d ∧
      ((∃ e, (video fs).turn c = .next e ∧
          AsksFrom { d.state.data with taskType := taskType } c.state.world e.state.world) ↔
        Serviceable fs { d.state.data with taskType := taskType } c.state.world.world) := by
  obtain ⟨d, hd, hworld⟩ := keyFunctions_return fs (taskType :: rest)
    { c.getline.1 with state := { c.getline.1.state with data := {} } }
  have hdesk : d.state.world = c.state.world := by
    rw [hworld]
    change c.getline.1.state.world = c.state.world
    rw [getline_state]
  refine ⟨d, hd, ?_⟩
  rw [turn_video fs c hs hvec htask, hd, Option.bind_some, runTask_video fs htask, hdesk, ← perform_iff]
  constructor
  · rintro ⟨e, he, _⟩
    obtain ⟨desk', hdesk', _⟩ := Option.map_eq_some_iff.mp (UserInput.ofRun_next he)
    exact ⟨desk', hdesk'⟩
  · rintro ⟨desk', hdesk'⟩
    refine ⟨{ d with state := ⟨{ d.state.data with taskType := taskType }, desk'⟩ }, ?_, perform_asks hdesk'⟩
    rw [hdesk']
    rfl

/-- Files where nothing is a directory and a command changes nothing. -/
def plain : Files Unit := ⟨fun _ _ => some false, fun _ _ => none, fun _ _ => none, fun _ _ => ()⟩

theorem video_asks_iff_play :
    ∃ d, (video plain).readKeys [bytes "play", bytes "-s", bytes "a"] ⟨[], false, false, ⟨{}, ⟨(), []⟩⟩⟩ = some d ∧
      ((∃ e, (video plain).turn ⟨bytes "play -s a", false, false, ⟨{}, ⟨(), []⟩⟩⟩ = .next e ∧
          AsksFrom { d.state.data with taskType := bytes "play" } ⟨(), []⟩ e.state.world) ↔
        Serviceable plain { d.state.data with taskType := bytes "play" } ()) :=
  video_asks_iff plain ⟨bytes "play -s a", false, false, ⟨{}, ⟨(), []⟩⟩⟩ rfl (by decide) (Or.inr rfl)

/-- An end without a begin is an exception. -/
theorem video_not_always_asks :
    ¬ ∀ (fs : Files Unit) (c : Console (VideoState (Desk Unit))) (taskType : List UInt8) (rest : List (List UInt8)),
      c.stopped = false → splitString c.getline.2 = taskType :: rest →
      (taskType = bytes "cv" ∨ taskType = bytes "play") → (video fs).turn c ≠ .thrown := by
  intro h
  exact h plain ⟨bytes "play -s a -e 5", false, false, ⟨{}, ⟨(), []⟩⟩⟩ (bytes "play")
    [bytes "-s", bytes "a", bytes "-e", bytes "5"] rfl (by decide) (Or.inr rfl) rfl

end XVideoInput

end CppInAction
