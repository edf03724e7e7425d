import CppInAction.FFCommand
import CppInAction.ShellWords

namespace CppInAction

/-- The line that RunCommand gives to popen. -/
def XExec.popenLine (cmd : List UInt8) : List UInt8 := cmd ++ bytes " 2>&1"

namespace FFTask

/-- The program that works on the data. -/
def program (data : TaskData) : List UInt8 :=
  if data.taskType = bytes "play" then bytes "ffplay" else bytes "ffmpeg"

/-- The secret key, as long as the default key: what is too much is left out, and what is
missing comes from the default key. -/
def wholeKey (secret : List UInt8) : List UInt8 :=
  secret.take defaultKey.length ++ defaultKey.drop secret.length

/-- The arguments for the times; none is an exception of stoi. -/
def cutArguments (data : TaskData) : Option (List (List UInt8)) :=
  let begin := if data.beginSeconds = [] then [] else [bytes "-ss", data.beginSeconds]
  if data.endSeconds = [] then some begin
  else do
    let finish ← stoi data.endSeconds
    let start ← stoi data.beginSeconds
    let segment := toInt32 (finish - start)
    some (begin ++ if 0 < segment then [bytes "-t", decimal segment] else [])

def keyArguments (data : TaskData) : List (List UInt8) :=
  if data.secretKey = [] then []
  else if data.isEncrypt then
    [bytes "-encryption_scheme", bytes "cenc-aes-ctr", bytes "-encryption_kid",
      bytes "abcdef0123456789abcdef0123456789", bytes "-encryption_key", wholeKey data.secretKey,
      bytes "-c:v", bytes "libx264", bytes "-c:a", bytes "aac"]
  else [bytes "-decryption_key", wholeKey data.secretKey, bytes "-c", bytes "copy"]

/-- The arguments that the data ask for, each of src, the times, the key and des as one. -/
def arguments (data : TaskData) : Option (List (List UInt8)) :=
  (cutArguments data).map fun cut =>
    (if data.taskType = bytes "play" then [] else [bytes "-y"]) ++ [bytes "-i", data.src] ++ cut ++
      keyArguments data ++ if data.taskType = bytes "cv" then [data.des] else []

/-- What the data bring into the command by themselves is plain. -/
structure PlainData (data : TaskData) : Prop where
  src : Shell.Plain data.src
  begin : data.beginSeconds ≠ [] → Shell.Plain data.beginSeconds
  key : data.secretKey ≠ [] → Shell.Plain (wholeKey data.secretKey)
  des : data.taskType = bytes "cv" → Shell.Plain data.des

theorem overlayKey_eq (key secret : List UInt8) :
    overlayKey key secret = secret.take key.length ++ key.drop secret.length := by
  induction key generalizing secret with
  | nil => cases secret <;> rfl
  | cons b key ih =>
    cases secret with
    | nil => rfl
    | cons c secret => exact congrArg (c :: ·) (ih secret)

theorem spaced_option (name value : List UInt8) : Shell.spaced [name, value] = 32 :: name ++ 32 :: value := by
  simp [Shell.spaced]

theorem cutText_eq (data : TaskData) : cutText data = (cutArguments data).map Shell.spaced := by
  have hbegin : (if data.beginSeconds = [] then [] else bytes " -ss " ++ data.beginSeconds) =
      Shell.spaced (if data.beginSeconds = [] then [] else [bytes "-ss", data.beginSeconds]) := by
    by_cases hnil : data.beginSeconds = []
    · rw [if_pos hnil, if_pos hnil]
      rfl
    · rw [if_neg hnil, if_neg hnil, spaced_option]
      rfl
  unfold cutText cutArguments
  dsimp only
  rw [hbegin]
  by_cases hend : data.endSeconds = []
  · rw [if_pos hend, if_pos hend, Option.map_some]
  · rw [if_neg hend, if_neg hend]
    cases hf : stoi data.endSeconds with
    | none => rfl
    | some finish =>
      cases hs : stoi data.beginSeconds with
      | none => rfl
      | some start =>
        by_cases hpos : 0 < toInt32 (finish - start)
        · simp only [Option.bind_eq_bind, Option.bind_some, Option.map_some, if_pos hpos, Shell.spaced_append, spaced_option]
          rfl
        · simp only [Option.bind_eq_bind, Option.bind_some, Option.map_some, if_neg hpos, List.append_nil]

theorem keyText_eq (data : TaskData) : keyText data = Shell.spaced (keyArguments data) := by
  have hscheme : bytes " -encryption_scheme cenc-aes-ctr -encryption_kid abcdef0123456789abcdef0123456789" =
      Shell.spaced [bytes "-encryption_scheme", bytes "cenc-aes-ctr", bytes "-encryption_kid",
        bytes "abcdef0123456789abcdef0123456789"] := by
    decide
  have hkey : bytes " -encryption_key " = 32 :: bytes "-encryption_key" ++ [32] := by decide
  have hcodecs : bytes " -c:v libx264 -c:a aac" =
      Shell.spaced [bytes "-c:v", bytes "libx264", bytes "-c:a", bytes "aac"] := by
    decide
  have hkey' : bytes " -decryption_key " = 32 :: bytes "-decryption_key" ++ [32] := by decide
  have hcopy : bytes " -c copy" = Shell.spaced [bytes "-c", bytes "copy"] := by decide
  unfold keyText keyArguments
  rw [overlayKey_eq, ← wholeKey]
  by_cases hnil : data.secretKey = []
  · rw [if_pos hnil, if_pos hnil]
    rfl
  · rw [if_neg hnil, if_neg hnil]
    cases data.isEncrypt with
    | true =>
      rw [hscheme, hkey, hcodecs]
      simp [Shell.spaced]
    | false =>
      rw [hkey', hcopy]
      simp [Shell.spaced]

/-- The command is the program and its arguments, each behind a blank. -/
theorem command_eq (data : TaskData) :
    command data = (arguments data).map fun args => program data ++ Shell.spaced args := by
  have hsource : sourceText data =
      program data ++ Shell.spaced ((if data.taskType = bytes "play" then [] else [bytes "-y"]) ++ [bytes "-i", data.src]) := by
    unfold sourceText program
    by_cases hplay : data.taskType = bytes "play"
    · rw [if_pos hplay, if_pos hplay, if_pos hplay, List.nil_append, spaced_option]
      exact List.append_assoc (bytes "ffplay") (bytes " -i ") data.src
    · rw [if_neg hplay, if_neg hplay, if_neg hplay, Shell.spaced_append, spaced_option]
      exact List.append_assoc (bytes "ffmpeg -y") (bytes " -i ") data.src
  have hdes : (if data.taskType = bytes "cv" then 32 :: data.des else []) =
      Shell.spaced (if data.taskType = bytes "cv" then [data.des] else []) := by
    by_cases hcv : data.taskType = bytes "cv"
    · rw [if_pos hcv, if_pos hcv, Shell.spaced, List.flatMap_cons, List.flatMap_nil, List.append_nil]
    · rw [if_neg hcv, if_neg hcv]
      rfl
  unfold command arguments
  rw [cutText_eq, keyText_eq, hsource, hdes, Option.map_map]
  cases cutArguments data with
  | none => rfl
  | some cut =>
    simp only [Option.bind_eq_bind, Option.map_some, Option.bind_some, Function.comp_apply, Shell.spaced_append,
      List.append_assoc]

theorem plain_decimal {x : Int} (h : 0 < x) : Shell.Plain (decimal x) := by
  obtain ⟨n, rfl⟩ := Int.eq_ofNat_of_zero_le (Int.le_of_lt h)
  rw [decimal_ofNat]
  refine Shell.plain_of_harmless ?_ (List.all_eq_true.mpr fun b hb => Shell.harmless_digit (isDigit_digits n b hb))
  rw [digits_eq]
  exact fun hnil => Nat.toDigits_ne_nil (List.map_eq_nil_iff.mp hnil)

/-- A text that Start writes itself. -/
theorem plain_own (s : String) (h : (!(bytes s).isEmpty && (bytes s).all Shell.Harmless) = true) : Shell.Plain (bytes s) := by
  rw [Bool.and_eq_true, Bool.not_eq_true', List.isEmpty_eq_false_iff] at h
  exact Shell.plain_of_harmless h.1 h.2

theorem cutArguments_plain {data : TaskData} {cut : List (List UInt8)} (h : cutArguments data = some cut) :
    (∀ t ∈ cut, Shell.Plain t) ↔ (data.beginSeconds ≠ [] → Shell.Plain data.beginSeconds) := by
  have hbegin : (∀ t ∈ if data.beginSeconds = [] then [] else [bytes "-ss", data.beginSeconds], Shell.Plain t) ↔
      (data.beginSeconds ≠ [] → Shell.Plain data.beginSeconds) := by
    by_cases hnil : data.beginSeconds = []
    · simp [hnil]
    · simp [hnil, plain_own "-ss" (by decide)]
  unfold cutArguments at h
  dsimp only at h
  split at h
  next =>
    cases Option.some.inj h
    exact hbegin
  next =>
    obtain ⟨finish, _, h⟩ := Option.bind_eq_some_iff.mp h
    obtain ⟨start, _, h⟩ := Option.bind_eq_some_iff.mp h
    rw [← Option.some.inj h, List.forall_mem_append, hbegin]
    split
    next hpos => simp [plain_own "-t" (by decide), plain_decimal hpos]
    next => simp

theorem keyArguments_plain (data : TaskData) :
    (∀ t ∈ keyArguments data, Shell.Plain t) ↔ (data.secretKey ≠ [] → Shell.Plain (wholeKey data.secretKey)) := by
  unfold keyArguments
  by_cases hnil : data.secretKey = []
  · simp [hnil]
  · rw [if_neg hnil]
    cases data.isEncrypt with
    | true =>
      simp only [if_true, List.forall_mem_cons, plain_own "-encryption_scheme" (by decide),
        plain_own "cenc-aes-ctr" (by decide), plain_own "-encryption_kid" (by decide),
        plain_own "abcdef0123456789abcdef0123456789" (by decide),
        plain_own "-encryption_key" (by decide), plain_own "-c:v" (by decide),
        plain_own "libx264" (by decide), plain_own "-c:a" (by decide), plain_own "aac" (by decide)]
      simp [hnil]
    | false =>
      simp [hnil, plain_own "-decryption_key" (by decide), plain_own "-c" (by decide),
        plain_own "copy" (by decide)]

theorem arguments_plain {data : TaskData} {args : List (List UInt8)} (h : arguments data = some args) :
    (∀ t ∈ program data :: args, Shell.Plain t) ↔ PlainData data := by
  obtain ⟨cut, hcut, rfl⟩ := Option.map_eq_some_iff.mp h
  have hprogram : Shell.Plain (program data) := by
    unfold program
    split
    next => exact plain_own "ffplay" (by decide)
    next => exact plain_own "ffmpeg" (by decide)
  have hoverwrite : ∀ t ∈ if data.taskType = bytes "play" then [] else [bytes "-y"], Shell.Plain t := by
    split
    next => exact List.forall_mem_nil _
    next => exact List.forall_mem_singleton.mpr (plain_own "-y" (by decide))
  have hdes : (∀ t ∈ if data.taskType = bytes "cv" then [data.des] else [], Shell.Plain t) ↔
      (data.taskType = bytes "cv" → Shell.Plain data.des) := by
    by_cases hcv : data.taskType = bytes "cv"
    · simp [hcv]
    · simp [hcv]
  rw [List.forall_mem_cons, List.forall_mem_append, List.forall_mem_append, List.forall_mem_append, List.forall_mem_append,
    cutArguments_plain hcut, keyArguments_plain, hdes]
  constructor
  · rintro ⟨_, ⟨⟨⟨_, hsrc⟩, hbegin⟩, hkey⟩, hdes⟩
    exact ⟨hsrc data.src (by simp), hbegin, hkey, hdes⟩
  · intro hplain
    refine ⟨hprogram, ⟨⟨⟨hoverwrite, ?_⟩, hplain.begin⟩, hplain.key⟩, hplain.des⟩
    exact List.forall_mem_cons.mpr ⟨plain_own "-i" (by decide), List.forall_mem_singleton.mpr hplain.src⟩

/-- The shell reads the arguments that the data ask for out of the command, wherever it runs,
exactly if the data are plain. -/
theorem popenLine_argv_iff {data : TaskData} {cmd : List UInt8} (h : command data = some cmd) :
    (∀ env, Shell.argv env (XExec.popenLine cmd) = (arguments data).map (program data :: ·)) ↔ PlainData data := by
  rw [command_eq] at h
  obtain ⟨args, hargs, rfl⟩ := Option.map_eq_some_iff.mp h
  rw [← arguments_plain hargs, hargs, ← Shell.argv_spaced_iff]
  rfl

theorem popenLine_argv_iff_play :
    (∀ env, Shell.argv env (XExec.popenLine (bytes "ffplay -i a -ss 5")) =
      (arguments { taskType := bytes "play", src := bytes "a", beginSeconds := bytes "5" }).map (bytes "ffplay" :: ·)) ↔
        PlainData { taskType := bytes "play", src := bytes "a", beginSeconds := bytes "5" } :=
  @popenLine_argv_iff { taskType := bytes "play", src := bytes "a", beginSeconds := bytes "5" } _ (by decide)

/-- The file v/a b becomes two arguments. -/
theorem popenLine_not_always_argv :
    ¬ ∀ (data : TaskData) (path : List UInt8) (t : Directory) (file : XFile), data.taskType = bytes "cv" →
      file ∈ XDir.getFiles path t → ∀ cmd, command (XVideoInput.fileData data file) = some cmd →
        ∀ env, Shell.argv env (XExec.popenLine cmd) =
          (arguments (XVideoInput.fileData data file)).map (program (XVideoInput.fileData data file) :: ·) := by
  intro h
  have hargv := h { taskType := bytes "cv", src := bytes "v", des := bytes "w" } (bytes "v") (.file (bytes "a b") .done)
    ⟨bytes "a b", bytes "v/a b", []⟩ rfl List.mem_cons_self (bytes "ffmpeg -y -i v/a b w/a b") (by decide) (Shell.strange [])
  exact absurd hargv (by decide)

end FFTask

end CppInAction
