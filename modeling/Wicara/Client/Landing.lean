import Wicara.Client.Files

namespace Wicara.Client

open Wicara.Core Lib

/-- What is relied on of `char::is_alphanumeric`. -/
structure Alphanumeric (alphanumeric : Char → Bool) : Prop where
  ascii : ∀ c : Char, c.toNat < 128 → alphanumeric c = c.isAlphanum
  control : ∀ c, isControl c = true → alphanumeric c = false

/-- `Path::components`, but for the root and a leading dot. -/
def components (path : List Char) : List (List Char) :=
  (path.splitOnP (· = '/')).filter fun c => c ≠ [] ∧ c ≠ ['.']

/-- The path is that of the directory and one name more, which leads no way up. -/
def ChildOf (dir path : String) : Prop :=
  ∃ name, name ≠ "..".toList ∧ components path.toList = components dir.toList ++ [name] ∧
    (path.toList.head? = some '/' ↔ dir.toList.head? = some '/')

section Paths

variable {dir name : String}

theorem components_append_slash (l r : List Char) :
    components (l ++ '/' :: r) = components l ++ components r := by
  rw [components, List.splitOnP_append_cons l r (by simp), List.filter_append]
  rfl

theorem components_singleton {name : List Char} (hslash : '/' ∉ name) (hne : name ≠ [])
    (hdot : name ≠ ['.']) : components name = [name] := by
  have hsplit : name.splitOnP (· = '/') = [name] :=
    List.splitOnP_eq_singleton fun c hc => decide_eq_false (by rintro rfl; exact hslash hc)
  rw [components, hsplit, List.filter_cons_of_pos (by simp [hne, hdot])]
  rfl

theorem fileName_eq_self (hslash : '/' ∉ name.toList) (hne : name.toList ≠ [])
    (hdot : name.toList.head? ≠ some '.') : fileName name = some name := by
  have hdots (rest : List Char) : name.toList ≠ '.' :: rest := fun h => hdot (by simp [h])
  have hcomponents := components_singleton hslash hne (hdots [])
  rw [components] at hcomponents
  simp only [fileName, hcomponents, List.getLast?_singleton]
  split
  · rename_i heq
    exact absurd (Option.some.inj heq) (hdots _)
  · simp

theorem childOf_join (hslash : '/' ∉ name.toList) (hne : name.toList ≠ [])
    (hdot : name.toList ≠ ['.']) (hup : name.toList ≠ "..".toList) :
    ChildOf dir (join dir name) := by
  have hname := components_singleton hslash hne hdot
  refine ⟨name.toList, hup, ?_⟩
  rw [join]
  split
  · rename_i hdir
    obtain rfl | hend := hdir
    · have hhead : name.toList.head? ≠ some '/' := fun h => hslash (List.mem_of_mem_head? h)
      rw [String.empty_append, hname]
      exact ⟨rfl, iff_of_false hhead (by decide)⟩
    · obtain ⟨d, hd⟩ : ∃ d, dir.toList = d ++ ['/'] :=
        ⟨_, (List.dropLast_append_getLast? _ hend).symm⟩
      rw [String.toList_append, hd, List.append_assoc, List.singleton_append,
        components_append_slash, components_append_slash, hname]
      refine ⟨by simp [components], ?_⟩
      cases d with
      | nil => simp
      | cons c d => simp
  · rename_i hdir
    have hnil : dir.toList ≠ [] := fun h => hdir (.inl (String.toList_eq_nil_iff.mp h))
    obtain ⟨c, d, hd⟩ := List.exists_cons_of_ne_nil hnil
    rw [String.toList_append, String.toList_append, List.append_assoc,
      show "/".toList ++ name.toList = '/' :: name.toList from rfl, components_append_slash, hname,
      hd]
    exact ⟨rfl, Iff.rfl⟩

end Paths

section SafeName

variable {alphanumeric : Char → Bool} {name : String} {c : Char}

/-- What is left of a name is what may be left of it. -/
theorem mem_safeName (h : Alphanumeric alphanumeric)
    (hc : c ∈ (safeName alphanumeric name).toList) :
    alphanumeric c ∨ c ∈ " ._-".toList := by
  have hattachment : "attachment".toList.all fun c => c.toNat < 128 ∧ c.isAlphanum = true := by
    decide
  simp only [safeName] at hc
  split at hc
  · obtain ⟨hascii, halnum⟩ := of_decide_eq_true (List.all_eq_true.mp hattachment c hc)
    exact .inl (by rw [h.ascii c hascii, halnum])
  · rw [String.toList_ofList] at hc
    obtain ⟨d, -, hd⟩ := List.mem_map.mp (mem_of_mem_trimMatches hc)
    split at hd
    · rename_i hsafe
      exact hd ▸ hsafe
    · exact .inr (by simp [← hd])

theorem safeName_not_hostile (h : Alphanumeric alphanumeric)
    (hc : c ∈ (safeName alphanumeric name).toList) :
    c ≠ '/' ∧ c ≠ '\\' ∧ isControl c = false := by
  have hkept : " ._-".toList.all fun c => c ≠ '/' ∧ c ≠ '\\' ∧ isControl c = false := by
    decide
  obtain halnum | hlisted := mem_safeName h hc
  · refine ⟨?_, ?_, ?_⟩
    · rintro rfl
      rw [h.ascii _ (by decide)] at halnum
      exact absurd halnum (by decide)
    · rintro rfl
      rw [h.ascii _ (by decide)] at halnum
      exact absurd halnum (by decide)
    · by_contra hcontrol
      simp [h.control c (by simpa using hcontrol)] at halnum
  · exact of_decide_eq_true (List.all_eq_true.mp hkept c hlisted)

theorem safeName_ends (hc : c ∈ (safeName alphanumeric name).toList.head? ∨
    c ∈ (safeName alphanumeric name).toList.getLast?) : c ≠ '.' ∧ c ≠ ' ' := by
  have hends : decide (c ∈ ['.', ' ']) = false := by
    simp only [safeName] at hc
    split at hc
    · have hattachment : c = 'a' ∨ c = 't' := by simpa [eq_comm] using hc
      obtain rfl | rfl := hattachment
      · decide
      · decide
    · rw [String.toList_ofList] at hc
      exact hc.elim not_of_head_trimMatches not_of_getLast_trimMatches
  simpa using hends

theorem safeName_ne_nil : (safeName alphanumeric name).toList ≠ [] := by
  simp only [safeName]
  split
  · decide
  · rename_i hne
    rwa [String.toList_ofList]

/-- A name that is safe already is left as it is. -/
theorem safeName_eq_self (hchars : ∀ c ∈ name.toList, alphanumeric c ∨ c ∈ " ._-".toList)
    (hslash : '/' ∉ name.toList) (hne : name.toList ≠ [])
    (hends : ∀ c, c ∈ name.toList.head? ∨ c ∈ name.toList.getLast? → c ≠ '.' ∧ c ≠ ' ') :
    safeName alphanumeric name = name := by
  have hfile : fileName name = some name :=
    fileName_eq_self hslash hne fun hdot => (hends '.' (.inl hdot)).1 rfl
  have hclean : (name.toList.map fun c =>
      if alphanumeric c ∨ c ∈ " ._-".toList then c else '_') = name.toList :=
    (List.map_congr_left fun c hc => if_pos (hchars c hc)).trans (List.map_id _)
  have htrim : trimMatches (fun c => c ∈ ['.', ' ']) name.toList = name.toList :=
    trimMatches_eq_self (fun c hc => by simpa using hends c (.inl hc))
      fun c hc => by simpa using hends c (.inr hc)
  simp only [safeName, hfile, Option.getD_some, hclean, htrim, if_neg hne, String.ofList_toList]

end SafeName

/-- Whatever a peer calls its file, the name is harmless, and the file lands right in the directory
for it. -/
theorem peer_never_chooses_where_its_file_lands {alphanumeric : Char → Bool}
    (h : Alphanumeric alphanumeric) (name : String) :
    let safe := safeName alphanumeric name
    safe ≠ "" ∧ (∀ c ∈ safe.toList, c ≠ '/' ∧ c ≠ '\\' ∧ isControl c = false) ∧
      (∀ c, c ∈ safe.toList.head? ∨ c ∈ safe.toList.getLast? → c ≠ '.' ∧ c ≠ ' ') ∧
      safeName alphanumeric safe = safe ∧
      ∀ (home : String) (id : MessageId),
        ChildOf (join home "files") (filesPath home s!"{id.display}-{safe}") := by
  intro safe
  have hslash : '/' ∉ safe.toList := fun hc => (safeName_not_hostile h hc).1 rfl
  refine ⟨fun hempty => safeName_ne_nil (String.toList_eq_nil_iff.mpr hempty),
    fun _ hc => safeName_not_hostile h hc, fun _ hc => safeName_ends hc,
    safeName_eq_self (fun _ hc => mem_safeName h hc) hslash safeName_ne_nil
      fun _ hc => safeName_ends hc, fun home id => ?_⟩
  have hdash : '-' ∈ s!"{id.display}-{safe}".toList := by
    simp [toString]
  refine childOf_join ?_ (List.ne_nil_of_mem hdash) ?_ ?_
  · simp only [toString, String.toList_append, List.mem_append, not_or]
    exact ⟨⟨slash_not_mem_display _, by decide⟩, hslash⟩
  · rintro hdot
    rw [hdot] at hdash
    exact absurd hdash (by decide)
  · rintro hup
    rw [hup] at hdash
    exact absurd hdash (by decide)

theorem alphanumeric_isAlphanum : Alphanumeric Char.isAlphanum where
  ascii _ _ := rfl
  control c hc := by
    have hbelow : ∀ n < 0xA0, isControl (.ofNat n) = true → (Char.ofNat n).isAlphanum = false := by
      decide +kernel
    have hn : c.toNat < 0x20 ∨ 0x7F ≤ c.toNat ∧ c.toNat ≤ 0x9F := of_decide_eq_true hc
    have hc' := hbelow c.toNat (by omega)
    rw [Char.ofNat_toNat] at hc'
    exact hc' hc

theorem peer_never_chooses_where_passwd_lands :
    let safe := safeName Char.isAlphanum "../../etc/passwd"
    safe = "passwd" ∧ ChildOf (join "/home/me" "files")
      (filesPath "/home/me" s!"{(⟨Bytes.replicate 32 2, 1, 10⟩ : MessageId).display}-{safe}") :=
  ⟨by decide +kernel,
    (peer_never_chooses_where_its_file_lands alphanumeric_isAlphanum _).2.2.2.2 _ _⟩

end Wicara.Client
