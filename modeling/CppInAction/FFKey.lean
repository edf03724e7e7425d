import CppInAction.FFShell

namespace CppInAction

namespace FFTask

/-- The text around the key in the command, for encryption and for decryption. -/
def keyFrame (isEncrypt : Bool) : List UInt8 × List UInt8 :=
  if isEncrypt then
    (bytes " -encryption_scheme cenc-aes-ctr -encryption_kid abcdef0123456789abcdef0123456789" ++
      bytes " -encryption_key ", bytes " -c:v libx264 -c:a aac")
  else (bytes " -decryption_key ", bytes " -c copy")

/-- This is the key in the command. -/
def HasKey (data : TaskData) (key : List UInt8) : Prop :=
  keyText data = (keyFrame data.isEncrypt).1 ++ key ++ (keyFrame data.isEncrypt).2

/-- The longer secret is the shorter one, and behind it what the default key has there. -/
def AgreesBeyond (secret longer : List UInt8) : Prop :=
  longer = secret ++ (defaultKey.drop secret.length).take (longer.length - secret.length)

instance (secret longer : List UInt8) : Decidable (AgreesBeyond secret longer) :=
  inferInstanceAs (Decidable (_ = _))

variable {data data' : TaskData} {key secret longer : List UInt8}

theorem hasKey_iff (hne : data.secretKey ≠ []) : HasKey data key ↔ key = wholeKey data.secretKey := by
  have htext :
      keyText data = (keyFrame data.isEncrypt).1 ++ wholeKey data.secretKey ++ (keyFrame data.isEncrypt).2 := by
    rw [keyText, if_neg hne, overlayKey_eq, ← wholeKey, keyFrame]
    cases data.isEncrypt <;> rfl
  rw [HasKey, htext, List.append_left_inj, List.append_right_inj]
  exact eq_comm

theorem wholeKey_length (secret : List UInt8) : (wholeKey secret).length = 32 := by
  have hdefault : defaultKey.length = 32 := by decide
  rw [wholeKey, List.length_append, List.length_take, List.length_drop, hdefault]
  omega

theorem wholeKey_of_le (h : secret.length ≤ 32) : wholeKey secret = secret ++ defaultKey.drop secret.length := by
  have hdefault : defaultKey.length = 32 := by decide
  rw [wholeKey, hdefault, List.take_of_length_le h]

theorem AgreesBeyond.length_le (h : AgreesBeyond secret longer) : secret.length ≤ longer.length := by
  have hlen := congrArg List.length h
  rw [List.length_append] at hlen
  omega

/-- A secret has the key of a shorter one exactly when it agrees with the default key beyond it. -/
theorem wholeKey_eq_iff_of_le (hle : secret.length ≤ longer.length) (h : longer.length ≤ 32) :
    wholeKey secret = wholeKey longer ↔ AgreesBeyond secret longer := by
  have hsplit :
      (defaultKey.drop secret.length).drop (longer.length - secret.length) = defaultKey.drop longer.length := by
    rw [List.drop_drop, Nat.add_sub_cancel' hle]
  rw [wholeKey_of_le (hle.trans h), wholeKey_of_le h]
  constructor
  · intro heq
    have htake := congrArg (List.take longer.length) heq
    rw [List.take_left, List.take_append, List.take_of_length_le hle] at htake
    exact htake.symm
  · intro hagree
    calc
      secret ++ defaultKey.drop secret.length
          = secret ++ ((defaultKey.drop secret.length).take (longer.length - secret.length) ++
              (defaultKey.drop secret.length).drop (longer.length - secret.length)) := by rw [List.take_append_drop]
      _ = longer ++ defaultKey.drop longer.length := by rw [← List.append_assoc, ← hagree, hsplit]

theorem wholeKey_eq_iff (h : secret.length ≤ 32) (h' : longer.length ≤ 32) :
    wholeKey secret = wholeKey longer ↔ AgreesBeyond secret longer ∨ AgreesBeyond longer secret := by
  have hsame : secret.length = longer.length → (AgreesBeyond longer secret ↔ AgreesBeyond secret longer) := by
    intro hlen
    simp only [AgreesBeyond, hlen, Nat.sub_self, List.take_zero, List.append_nil]
    exact eq_comm
  rcases lt_trichotomy secret.length longer.length with hlt | heq | hgt
  · rw [wholeKey_eq_iff_of_le hlt.le h', or_iff_left fun hback => absurd hback.length_le (by omega)]
  · rw [wholeKey_eq_iff_of_le heq.le h', hsame heq, or_self]
  · rw [eq_comm, wholeKey_eq_iff_of_le hgt.le h, or_iff_right fun hback => absurd hback.length_le (by omega)]

theorem agreesBeyond_self (secret : List UInt8) : AgreesBeyond secret secret := by
  rw [AgreesBeyond, Nat.sub_self, List.take_zero, List.append_nil]

/-- Both directions have a key of 32 characters, the same one for the same secret, and two
secrets have the same key exactly when they are equal up to characters of the default key. -/
theorem keys_eq_iff (hne : data.secretKey ≠ []) (hne' : data'.secretKey ≠ []) (hlen : data.secretKey.length ≤ 32)
    (hlen' : data'.secretKey.length ≤ 32) :
    ∃ key key', HasKey data key ∧ HasKey data' key' ∧ key.length = 32 ∧ key'.length = 32 ∧
      (data.secretKey = data'.secretKey → key = key') ∧
      (key = key' ↔ AgreesBeyond data.secretKey data'.secretKey ∨ AgreesBeyond data'.secretKey data.secretKey) := by
  have hiff := wholeKey_eq_iff hlen hlen'
  refine ⟨_, _, (hasKey_iff hne).mpr rfl, (hasKey_iff hne').mpr rfl, wholeKey_length _, wholeKey_length _, ?_, hiff⟩
  intro hsame
  exact hiff.mpr (Or.inl (hsame ▸ agreesBeyond_self data.secretKey))

/-- Encrypted with 12, decrypted with 13: the keys differ. -/
theorem keys_of_12_and_13 :
    ∃ key key', HasKey { secretKey := bytes "12" } key ∧
      HasKey { secretKey := bytes "13", isEncrypt := false } key' ∧
      key ≠ key' := by
  obtain ⟨key, key', h, h', _, _, _, hiff⟩ := @keys_eq_iff { secretKey := bytes "12" }
    { secretKey := bytes "13", isEncrypt := false } (by decide) (by decide) (by decide) (by decide)
  refine ⟨key, key', h, h', fun heq => ?_⟩
  have hagree := hiff.mp heq
  revert hagree
  decide

/-- The default key begins with 12, so that the password 1 has the key of the password 12. -/
theorem keys_of_1_and_12 :
    ¬∀ (data data' : TaskData) (key key' : List UInt8), data.secretKey ≠ [] → data'.secretKey ≠ [] →
      data.secretKey.length ≤ 32 → data'.secretKey.length ≤ 32 → HasKey data key → HasKey data' key' →
      data.secretKey ≠ data'.secretKey → key ≠ key' := by
  intro h
  have hne : bytes "1" ≠ [] := by decide
  have hne' : bytes "12" ≠ [] := by decide
  have hsame : wholeKey (bytes "1") = wholeKey (bytes "12") := by decide
  exact h { secretKey := bytes "1" } { secretKey := bytes "12", isEncrypt := false } _ _ hne hne'
    (by decide) (by decide)
    ((hasKey_iff hne).mpr rfl) ((hasKey_iff hne').mpr rfl) (by decide) hsame

end FFTask

end CppInAction
