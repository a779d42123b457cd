import StorageServer.Server.Configuration
import Mathlib.Data.Bool.AllAny
import Mathlib.Data.Int.ModEq
import Mathlib.Data.List.ReduceOption

/-! Files of well-formed lines. What they configure depends on their keys and values only, except
that the last byte of the file is never read. -/
namespace StorageServer.Server
open Common Library.LastWrites Library.Lines

/-- A key and a value that can be told apart on a line of their own. -/
structure ConfigSetting where
  key : List UInt8
  value : List UInt8
  key_ne : key ≠ []
  key_head : key.head? ≠ some 35
  key_plain : ∀ b ∈ key, b ≠ 61 ∧ b ≠ 10 ∧ b ≠ 0
  value_plain : ∀ b ∈ value, b ≠ 10 ∧ b ≠ 0

inductive ConfigLine
  | comment (text : {text : List UInt8 // 10 ∉ text})
  | blank
  | setting (s : ConfigSetting)

namespace ConfigLine

def text : ConfigLine → List UInt8
  | comment text => 35 :: text.val
  | blank => []
  | setting s => s.key ++ 61 :: s.value

def setting? : ConfigLine → Option Setting
  | comment _ | blank => none
  | setting s => some (s.key, s.value)

end ConfigLine

/-- The text of a file. The newline of its last line may be missing. -/
def fileText (terminated : Bool) (ls : List ConfigLine) : List UInt8 :=
  let text := ls.flatMap fun line => line.text ++ [10]
  if terminated then text else text.dropLast

def settings (ls : List ConfigLine) : List Setting := ls.filterMap ConfigLine.setting?

/-! ### Lines -/

variable {key value : List UInt8} {line : ConfigLine} {ls ls' : List ConfigLine}

theorem newline_notMem_text (line : ConfigLine) : 10 ∉ line.text := by
  cases line with
  | comment text =>
    refine fun h => text.property ((List.mem_cons.mp h).resolve_left ?_)
    decide
  | blank => exact List.not_mem_nil
  | setting s =>
    intro h
    rcases List.mem_append.mp h with h | h
    · exact (s.key_plain 10 h).2.1 rfl
    · exact (s.value_plain 10 ((List.mem_cons.mp h).resolve_left (by decide))).1 rfl

theorem splitLine_comment {text : List UInt8} : splitLine (35 :: text) = some none := by
  unfold splitLine
  split_ifs with h1 h2
  · rfl
  · rfl
  · exact absurd rfl h2

theorem splitLine_eq (hne : key ≠ []) (hhead : key.head? ≠ some 35)
    (hkey : ∀ b ∈ key, b ≠ 61 ∧ b ≠ 10 ∧ b ≠ 0) (hvalue : ∀ b ∈ value, b ≠ 10 ∧ b ≠ 0) (b : UInt8) :
    splitLine (key ++ 61 :: value ++ [b]) = some (some (key, value)) := by
  have hlen : (key ++ 61 :: value ++ [b]).length ≠ 1 := by
    have hpos := List.length_pos_iff.mpr hne
    simp only [List.length_append, List.length_cons]
    omega
  have hhash : (key ++ 61 :: value ++ [b]).head? ≠ some 35 := by
    obtain ⟨k, ks, rfl⟩ := List.exists_cons_of_ne_nil hne
    exact hhead
  have hzero : (key ++ 61 :: value).takeWhile (· ≠ 0) = key ++ 61 :: value := by
    refine List.takeWhile_eq_self_iff.mpr fun c hc => ?_
    rcases List.mem_append.mp hc with hc | hc
    · simpa using (hkey c hc).2.2
    · rcases List.mem_cons.mp hc with rfl | hc
      · decide
      · simpa using (hvalue c hc).2
  have hsplit : (key ++ 61 :: value).takeWhile (· ≠ 61) = key := by
    rw [List.takeWhile_append_of_pos fun c hc => by simpa using (hkey c hc).1,
      List.takeWhile_cons_of_neg (by decide), List.append_nil]
  unfold splitLine
  rw [if_neg hlen, if_neg hhash, List.dropLast_concat, hzero]
  dsimp only
  rw [hsplit, if_neg (by simp [hne]), List.drop_append, List.drop_of_length_le (Nat.le_succ _),
    Nat.add_sub_cancel_left]
  rfl

theorem splitLine_text (line : ConfigLine) :
    splitLine (line.text ++ [10]) = some line.setting? := by
  cases line with
  | comment text => exact splitLine_comment
  | blank => rfl
  | setting s => exact splitLine_eq s.key_ne s.key_head s.key_plain s.value_plain 10

/-- Without its newline a line loses its last byte. -/
theorem splitLine_cut (s : ConfigSetting) : splitLine (ConfigLine.setting s).text =
    if s.value = [] then none else some (some (s.key, s.value.dropLast)) := by
  split_ifs with hnil
  · have hpos := List.length_pos_iff.mpr s.key_ne
    have hhash : (s.key ++ [61]).head? ≠ some 35 := by
      have hhead := s.key_head
      obtain ⟨k, ks, hk⟩ := List.exists_cons_of_ne_nil s.key_ne
      rw [hk] at hhead ⊢
      exact hhead
    have hno : 61 ∉ s.key.takeWhile (· ≠ 0) := fun h =>
      (s.key_plain 61 ((List.takeWhile_sublist _).mem h)).1 rfl
    rw [ConfigLine.text, hnil, splitLine, if_neg (by rw [List.length_append]; simp [s.key_ne]),
      if_neg hhash, List.dropLast_concat]
    exact if_pos (Or.inl hno)
  · obtain ⟨b, hb⟩ : ∃ b, s.value = s.value.dropLast ++ [b] :=
      ⟨_, (List.dropLast_concat_getLast hnil).symm⟩
    have hplain : ∀ c ∈ s.value.dropLast, c ≠ 10 ∧ c ≠ 0 := fun c hc =>
      s.value_plain c (List.dropLast_subset s.value hc)
    have heq := splitLine_eq s.key_ne s.key_head s.key_plain hplain b
    rw [List.append_assoc, List.cons_append, ← hb] at heq
    exact heq

theorem lines_flatMap (ls : List ConfigLine) (more : List UInt8) :
    lines 10 ((ls.flatMap fun line => line.text ++ [10]) ++ more) =
      ls.map (fun line => line.text ++ [10]) ++ lines 10 more := by
  induction ls with
  | nil => rfl
  | cons line ls ih =>
    rw [List.flatMap_cons, List.append_assoc, List.append_assoc, List.singleton_append,
      lines_append (newline_notMem_text line), ih]
    rfl

theorem mapM_splitLine (ls : List ConfigLine) :
    (ls.map fun line => line.text ++ [10]).mapM splitLine = some (ls.map ConfigLine.setting?) := by
  induction ls with
  | nil => rfl
  | cons line ls ih =>
    rw [List.map_cons, List.mapM_cons, splitLine_text, ih]
    rfl

theorem reduceOption_map (ls : List ConfigLine) :
    (ls.map ConfigLine.setting?).reduceOption = settings ls := by
  rw [List.reduceOption, List.filterMap_map]
  rfl

theorem settings_concat (ls : List ConfigLine) (line : ConfigLine) :
    settings (ls ++ [line]) = settings ls ++ line.setting?.toList := by
  rw [settings, List.filterMap_append]
  cases line <;> rfl

theorem settingsOf_terminated (ls : List ConfigLine) :
    settingsOf (fileText true ls) = some (settings ls) := by
  have hlines := lines_flatMap ls []
  rw [List.append_nil, lines, List.append_nil] at hlines
  rw [settingsOf, fileText, if_pos rfl, hlines, mapM_splitLine, Option.map_some, reduceOption_map]

/-- What the last line sets without its newline. -/
def ConfigLine.cut : ConfigLine → Option (List Setting)
  | comment _ | blank => some []
  | setting s => if s.value = [] then none else some [(s.key, s.value.dropLast)]

theorem settingsOf_text (line : ConfigLine) : settingsOf line.text = line.cut := by
  have hno := newline_notMem_text line
  cases line with
  | blank => rfl
  | comment text =>
    rw [settingsOf, lines_of_notMem hno (List.cons_ne_nil _ _), List.mapM_cons, ConfigLine.text,
      splitLine_comment]
    rfl
  | setting s =>
    rw [settingsOf, lines_of_notMem hno (by simp [ConfigLine.text]), List.mapM_cons, splitLine_cut,
      ConfigLine.cut]
    split_ifs <;> rfl

theorem settingsOf_unterminated (ls : List ConfigLine) (line : ConfigLine) :
    settingsOf (fileText false (ls ++ [line])) = line.cut.map (settings ls ++ ·) := by
  have htext : fileText false (ls ++ [line]) =
      (ls.flatMap fun line => line.text ++ [10]) ++ line.text := by
    rw [fileText, if_neg Bool.false_ne_true, List.flatMap_append, List.flatMap_singleton,
      ← List.append_assoc, List.dropLast_concat]
  rw [htext, ← settingsOf_text, settingsOf, settingsOf, lines_flatMap, List.mapM_append,
    mapM_splitLine]
  cases (lines 10 line.text).mapM splitLine with
  | none => rfl
  | some more =>
    dsimp only [Option.bind_eq_bind, Option.bind_some, Option.pure_def, Option.map_some]
    rw [List.reduceOption_append, reduceOption_map]

/-! ### Different keys -/

section
variable {β : Type*} {o : ConfigOption} {f : List UInt8 → Option β} {init ss ss' : List Setting}

theorem eq_name_of_ofKey (h : ConfigOption.ofKey key = some o) : key = o.name := by
  unfold ConfigOption.ofKey at h
  have hname := List.find?_some h
  exact of_decide_eq_true hname

theorem key_of_valueFor (s : Setting) (b : β) (h : valueFor o f s = some b) : s.1 = o.name := by
  unfold valueFor at h
  split_ifs at h with ho
  exact eq_name_of_ofKey ho

theorem chosen_perm (hd : (ss.map Prod.fst).Nodup) (hp : ss.Perm ss') :
    chosen o f ss = chosen o f ss' := last_perm key_of_valueFor hd hp

/-- A new key sets its option and leaves the other ones as they are. -/
theorem chosen_new (hnew : key ∉ init.map Prod.fst) : chosen o f (init ++ [(key, value)]) =
    if ConfigOption.ofKey key = some o then f value else chosen o f init := by
  rw [chosen, last_concat, valueFor]
  dsimp only
  split_ifs with ho
  · have hnone : chosen o f init = none := by
      refine Option.eq_none_iff_forall_ne_some.mpr fun b hb => hnew ?_
      obtain ⟨s, hs, hvalue⟩ := exists_of_last hb
      have hkey := (key_of_valueFor s b hvalue).trans (eq_name_of_ofKey ho).symm
      exact List.mem_map.mpr ⟨s, hs, hkey⟩
    rw [← chosen, hnone, Option.or_none]
  · rfl

end

theorem configOf_perm {ss ss' : List Setting} (hd : (ss.map Prod.fst).Nodup) (hp : ss.Perm ss') :
    configOf ss = configOf ss' := by
  unfold configOf slots megabytes ratio
  simp only [chosen_perm hd hp]

/-! ### The last byte -/

/-- Without its last byte a value means the same. -/
def SameWithoutLast (key value : List UInt8) : Prop :=
  value ≠ [] ∧ match ConfigOption.ofKey key with
  | none => True
  | some .socketFile | some .logFile => fileName value = fileName value.dropLast
  | some .numWorkers => (positiveValue value).getD 2 = (positiveValue value.dropLast).getD 2
  | some .maxClients => (positiveValue value).getD 8 = (positiveValue value.dropLast).getD 8
  | some .maxSizeMB => (positiveValue value).getD 16 = (positiveValue value.dropLast).getD 16
  | some .maxSizeSlot => (positiveValue value).getD 32 = (positiveValue value.dropLast).getD 32
  | some .tableSize => (tableSizeIndex value).getD 3 = (tableSizeIndex value.dropLast).getD 3

/-- The name of a table size is not the beginning of another one with one byte more. -/
theorem tableSizeIndex_dropLast (value : List UInt8) :
    tableSizeIndex value = none ∨ tableSizeIndex value.dropLast = none := by
  cases h : tableSizeIndex value with
  | none => exact Or.inl rfl
  | some i =>
    obtain ⟨j, hj, -⟩ := Option.map_eq_some_iff.mp h
    obtain ⟨hlt, hname⟩ := List.findIdx?_eq_some_iff_getElem.mp hj
    have hall : ∀ name ∈ tableSizeValue, tableSizeIndex name.dropLast = none := by decide
    rw [of_decide_eq_true hname.1]
    exact Or.inr (hall _ (List.getElem_mem hlt))

theorem parsePositiveInteger_le (str : List UInt8) : parsePositiveInteger str ≤ 2^31 - 1 := by
  unfold parsePositiveInteger
  dsimp only
  split_ifs
  · decide
  · decide
  · rw [toInt, Int.bmod_def]
    split_ifs <;> omega

theorem slots_le (ss : List Setting) : slots ss ≤ 2^31 - 1 := by
  unfold slots
  cases h : chosen .maxSizeSlot positiveValue ss with
  | none => decide
  | some v =>
    obtain ⟨value, hv⟩ := valid_of_chosen h
    rw [Option.getD_some, (pos_of_positiveValue hv).2]
    exact parsePositiveInteger_le value

theorem toInt_modEq (x : ℤ) : toInt x ≡ x [ZMOD 2^32] := by
  unfold Int.ModEq toInt
  exact Int.bmod_emod

theorem toInt_of_toSize {x y : ℤ} (h : toSize (toInt x) = toSize (toInt y)) :
    toInt x = toInt y := by
  unfold toSize toInt at *
  rw [Int.bmod_def, Int.bmod_def] at *
  split_ifs at * <;> omega

theorem tableSizeOf_modEq {s r r' : ℤ} (h : tableSizeOf s r = tableSizeOf s r') :
    s * r ≡ s * r' [ZMOD 2^32] := by
  have hint := toInt_of_toSize h
  have hsum : 1024*1024 + toInt (s * r) ≡ 1024*1024 + toInt (s * r') [ZMOD 2^32] :=
    (toInt_modEq _).symm.trans (hint ▸ toInt_modEq _)
  exact (toInt_modEq _).symm.trans ((Int.ModEq.add_left_cancel' _ hsum).trans (toInt_modEq _))

/-- Another table size than medium is seen in the number of slots of the table. -/
theorem tableSizeOf_inj {s : ℤ} {i : ℕ} (hs : 1 ≤ s) (hmax : s ≤ 2^31 - 1) (h1 : 1 ≤ i)
    (h5 : i ≤ 5) (h : tableSizeOf s (tableRatio.getD (i - 1) 0) = tableSizeOf s 3) : i = 3 := by
  have hratio : ∀ i < 6, 1 ≤ i → i = 3 ∨ Int.gcd (2^32) (3 - tableRatio.getD (i - 1) 0) = 1 := by
    decide
  refine (hratio i (Nat.lt_succ_of_le h5) h1).resolve_right fun hr => ?_
  have hdvd := (tableSizeOf_modEq h).dvd
  rw [← Int.mul_sub] at hdvd
  have hle := Int.le_of_dvd (by omega) (Int.dvd_of_dvd_mul_left_of_gcd_one hdvd hr)
  omega

theorem tableSizeOf_dropLast_iff {s : ℤ} (hs : 1 ≤ s) (hmax : s ≤ 2^31 - 1)
    (value : List UInt8) :
    tableSizeOf s (tableRatio.getD ((tableSizeIndex value.dropLast).getD 3 - 1) 0) =
      tableSizeOf s (tableRatio.getD ((tableSizeIndex value).getD 3 - 1) 0) ↔
    (tableSizeIndex value).getD 3 = (tableSizeIndex value.dropLast).getD 3 := by
  have hrange (v) : 1 ≤ (tableSizeIndex v).getD 3 ∧ (tableSizeIndex v).getD 3 ≤ 5 := by
    cases h : tableSizeIndex v with
    | none => decide
    | some i => exact tableSizeIndex_range h
  refine ⟨fun h => ?_, fun h => by rw [h]⟩
  rcases tableSizeIndex_dropLast value with hnone | hnone
  · rw [hnone] at h ⊢
    exact (tableSizeOf_inj hs hmax (hrange _).1 (hrange _).2 h).symm
  · rw [hnone] at h ⊢
    exact tableSizeOf_inj hs hmax (hrange _).1 (hrange _).2 h.symm

/-- A last setting is read without its last byte as with it if it means the same. -/
theorem configOf_dropLast_iff {init : List Setting} (hnew : key ∉ init.map Prod.fst)
    (hne : value ≠ []) : configOf (init ++ [(key, value.dropLast)]) =
      configOf (init ++ [(key, value)]) ↔ SameWithoutLast key value := by
  unfold SameWithoutLast configOf slots megabytes ratio
  simp only [chosen_new hnew, ServerConfig.mk.injEq, FSConfig.mk.injEq]
  rw [and_iff_right hne]
  cases ConfigOption.ofKey key with
  | none => simp only [reduceCtorEq, if_false, and_self]
  | some o =>
    simp only [Option.some.injEq]
    cases o with
    | socketFile | logFile =>
      simp only [reduceCtorEq, if_true, if_false, and_self, and_true, true_and]
      exact ⟨fun h => congrArg some (Eq.symm h), fun h => (Option.some.inj h).symm⟩
    | numWorkers | maxClients | maxSizeMB =>
      simp only [reduceCtorEq, if_true, if_false, and_self, and_true, true_and]
      exact eq_comm
    | maxSizeSlot =>
      simp only [reduceCtorEq, if_true, if_false, and_true, true_and]
      exact ⟨fun h => h.2.symm, fun h => ⟨by rw [h], h.symm⟩⟩
    | tableSize =>
      simp only [reduceCtorEq, if_true, if_false, and_true, true_and]
      exact tableSizeOf_dropLast_iff (one_le_getD init (by decide)) (slots_le init) value

/-! ### Main result -/

/-- A file with different keys is read like every file with the same settings, in whatever order,
if and only if its last line ends with a newline or does not need its last byte. -/
theorem readConfigs_of_perm_iff (terminated : Bool) (ls : List ConfigLine)
    (hd : ((settings ls).map Prod.fst).Nodup) :
    (∀ ls', (settings ls').Perm (settings ls) →
      readConfigs (fileText terminated ls) = readConfigs (fileText true ls')) ↔
    terminated = true ∨
      ∀ s, ls.getLast? = some (.setting s) → SameWithoutLast s.key s.value := by
  have hperm : ∀ ls', (settings ls').Perm (settings ls) →
      readConfigs (fileText true ls') = readConfigs (fileText true ls) := by
    intro ls' hp
    rw [readConfigs_eq, readConfigs_eq, settingsOf_terminated, settingsOf_terminated,
      Option.map_some, Option.map_some, configOf_perm hd hp.symm]
  have hself : (∀ ls', (settings ls').Perm (settings ls) →
      readConfigs (fileText terminated ls) = readConfigs (fileText true ls')) ↔
      readConfigs (fileText terminated ls) = readConfigs (fileText true ls) :=
    ⟨fun h => h ls (.refl _), fun h ls' hp => h.trans (hperm ls' hp).symm⟩
  rw [hself]
  cases terminated with
  | true => exact iff_of_true rfl (Or.inl rfl)
  | false =>
    rw [or_iff_right Bool.false_ne_true]
    induction ls using List.reverseRecOn with
    | nil => exact iff_of_true rfl nofun
    | append_singleton init line =>
      rw [readConfigs_eq, readConfigs_eq, settingsOf_unterminated, settingsOf_terminated,
        List.getLast?_concat, settings_concat]
      rw [settings_concat, List.map_append] at hd
      cases line with
      | comment | blank =>
        rw [ConfigLine.cut, Option.map_some]
        exact iff_of_true rfl nofun
      | setting s =>
        have hnew : s.key ∉ (settings init).map Prod.fst := fun hmem =>
          List.disjoint_of_nodup_append hd hmem List.mem_cons_self
        have hlast : (∀ s', some (ConfigLine.setting s) = some (.setting s') →
            SameWithoutLast s'.key s'.value) ↔ SameWithoutLast s.key s.value :=
          ⟨fun h => h s rfl, fun h s' hs' => by cases hs'; exact h⟩
        rw [hlast, ConfigLine.cut]
        split_ifs with hnil
        · exact iff_of_false nofun fun h => h.1 hnil
        · rw [← configOf_dropLast_iff hnew hnil]
          exact ⟨fun h => Option.some.inj h, congrArg some⟩

def fewWorkers : ConfigSetting where
  key := ascii "numWorkers"
  value := ascii "12"
  key_ne := by decide
  key_head := by decide
  key_plain := List.all_iff_forall_prop.mp (by decide)
  value_plain := List.all_iff_forall_prop.mp (by decide)

def moreSlots : ConfigSetting where
  key := ascii "maxSizeSlot"
  value := ascii "64"
  key_ne := by decide
  key_head := by decide
  key_plain := List.all_iff_forall_prop.mp (by decide)
  value_plain := List.all_iff_forall_prop.mp (by decide)

/-- An invalid number of megabytes. -/
def someMegabytes : ConfigSetting where
  key := ascii "maxSizeMB"
  value := ascii "some"
  key_ne := by decide
  key_head := by decide
  key_plain := List.all_iff_forall_prop.mp (by decide)
  value_plain := List.all_iff_forall_prop.mp (by decide)

/-- Three settings behind a comment, without a final newline, and the same ones in another order. -/
theorem readConfigs_of_perm_iff_three :
    readConfigs (fileText false [.comment ⟨ascii " server", by decide⟩, .setting fewWorkers,
      .setting moreSlots, .blank, .setting someMegabytes]) =
    readConfigs (fileText true [.setting someMegabytes, .blank, .setting moreSlots,
      .setting fewWorkers]) := by
  refine (readConfigs_of_perm_iff false _ (by decide)).mpr (Or.inr ?_) _ (by decide)
  intro s hs
  cases hs
  have hkey : ConfigOption.ofKey someMegabytes.key = some .maxSizeMB := by decide
  refine ⟨by decide, ?_⟩
  rw [hkey]
  decide

/-- Twelve workers without a final newline are one worker. -/
theorem missing_newline_matters : ¬ ∀ terminated terminated' ls ls',
    ((settings ls).map Prod.fst).Nodup → (settings ls').Perm (settings ls) →
    readConfigs (fileText terminated ls) = readConfigs (fileText terminated' ls') := by
  intro h
  have hread := h true false [.setting fewWorkers] [.setting fewWorkers] (by decide) (.refl _)
  have hworkers : (readConfigs (fileText true [.setting fewWorkers])).map (·.numWorkers) =
      (readConfigs (fileText false [.setting fewWorkers])).map (·.numWorkers) := by rw [hread]
  exact absurd hworkers (by decide)

end StorageServer.Server
