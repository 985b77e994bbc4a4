import Padsi.Lib.KeyFile
import Padsi.Lib.Python
import Padsi.Lib.Shlex

/-! # Desktop entries of the zones

An entry of a zone is written again so that its commands are run in the zone. What
matters is which lines the desktop reads as commands, and which of them are changed.
-/
namespace Padsi.Desktop
open Text Python List Option KeyFile

inductive Exc where
  | zoneName
  | noMainSection
  | shlex (e : Shlex.Error)
  | unpack
  | icon
deriving DecidableEq

structure Zone where
  name : Str
  apps : List Str

def cleanZoneName (U : Unicode) (zoneName : Str) : Except Exc Str :=
  if zoneName.filter U.alnum = [] then .error .zoneName else .ok (zoneName.filter U.alnum)
def startupWMClass : List (Str × Str) := [("org.gnome.Terminal","gnome-terminal-server")]
def joinPath (dir name : Str) : Str :=
  if ['/'] <+: name then name else if dir = [] ∨ ['/'] <:+ dir then dir ++ name else dir ++ '/' :: name
def basename (path : Str) : Str := path.rtakeWhile (· ≠ '/')

structure Contents where
  lines : List Str
  start : ℕ
  stop : ℕ

def isHeader (line : Str) : Bool := line.head? = some '[' && line.getLast? = some ']'

/-- The loop over the lines; the last main section counts, and the first header after a main section ends it. -/
def scan : ℕ → Option ℕ → Option ℕ → List Str → ℕ × Option ℕ × Option ℕ
  | index, start, stop, [] => (index,start,stop)
  | index, start, stop, line :: lines =>
    if strip line = "[Desktop Entry]" then scan (index + 1) (some index) stop lines
    else if start.isSome && stop.isNone && isHeader (strip line) then scan (index + 1) start (some (index - 1)) lines
    else scan (index + 1) start stop lines

def contents (content : Str) : Except Exc Contents :=
  -- The last character of each line is removed, which is not a newline if the file ends without one.
  let lines := (KeyFile.readLines (KeyFile.translate content)).map dropLast
  let (index,start,stop) := scan 0 none none lines
  match start with
  | none => .error .noMainSection
  | some start => .ok ⟨lines,start,stop.getD index⟩

def Contents.isMain (c : Contents) (index : ℕ) : Bool := c.start ≤ index && index < c.stop
def Contents.mainContents (c : Contents) : List Str := (c.lines.take (c.stop + 1)).drop c.start
def Contents.icon (c : Contents) : Option Str :=
  (c.mainContents.find? (startsWith "Icon=")).map fun line => strip (line.drop 5)

def Contents.iconPath (c : Contents) (dir zoneName : Str) : Option Str :=
  c.icon.map fun icon =>
    if '/' ∈ icon then joinPath dir ("padsi." ++ zoneName ++ '.' :: basename icon)
    else joinPath dir ("padsi." ++ zoneName ++ '.' :: icon ++ ".png")

structure Custom where
  zone : Zone
  zoneName : Str
  iconPath : Option Str
  colored : Bool
  nodisplay : Bool
  userDe : Bool
  appId : Str

namespace Custom

def wmClass (k : Custom) : Option Str := (startupWMClass.lookup k.appId).map fun c => "padsi." ++ k.zoneName ++ '.' :: c
def hidden (k : Custom) : Bool := k.nodisplay || (!k.userDe && k.colored && !k.zone.apps.contains k.appId)

end Custom

def launcher (zone : Zone) : Str := "padsi-cli run " ++ zone.name ++ [' ']
def waylandOptions : List Str := ["--enable-features=UseOzonePlatform","--ozone-platform=wayland"]

def customizeExec (zone : Zone) (line : Str) : Except Exc Str :=
  match Shlex.split (line.drop 5) with
  | .error e => .error (.shlex e)
  | .ok [] => .error .unpack
  | .ok (path :: args) =>
    if "padsi-cli" <:+ path then .ok line
    else if contains "chromium" path then
      .ok ("Exec=" ++ (launcher zone ++ Shlex.join (path :: waylandOptions ++ args)))
    else .ok ("Exec=" ++ (launcher zone ++ line.drop 5))

def isLocalizedName (line : Str) : Bool :=
  startsWith "Name[" line &&
    startsWith "]=" ((line.drop 5).dropWhile fun c => c.isAlphanum || c = '@' || c = '_' || c = '-')

def mainLine (k : Custom) (line : Str) : Except Exc (List Str) :=
  if startsWith "Icon=".toList line then .ok (if k.colored then (k.iconPath.map ("Icon=".toList ++ ·)).toList
    else [line])
  else if startsWith "DBusActivatable=" line then .ok ["DBusActivatable=false"]
  else if startsWith "Name=" line || isLocalizedName line then
    .ok [if k.colored then line ++ " (" ++ k.zoneName ++ [')'] else line]
  else if startsWith "Exec=" line then (customizeExec k.zone line).map fun l => [l]
  else if startsWith "NoDisplay=" line then .ok [if k.hidden then "NoDisplay=true" else line]
  else if startsWith "StartupWMClass=" line then
    .ok ["StartupWMClass=" ++ k.wmClass.getD ("padsi." ++ k.zoneName ++ '.' :: line.drop 15)]
  else if startsWith "MimeType=" line then .ok []
  else if startsWith "Version=".toList line then .ok (if line.drop 8 ∈ ["1.0".toList,"1.5".toList] then [line] else [])
  else .ok [line]

def otherLine (zone : Zone) (line : Str) : List Str :=
  if startsWith "Exec=" line then ["Exec=" ++ (launcher zone ++ line.drop 5)]
  else if startsWith "MimeType=" line then []
  else [line]

def endMain (k : Custom) (nodisplaySet wmclassSet : Bool) : List Str :=
  (if !nodisplaySet && k.hidden then ["NoDisplay=true".toList] else []) ++
    if wmclassSet then [] else (k.wmClass.map ("StartupWMClass=".toList ++ ·)).toList

def customizeLines (k : Custom) (c : Contents) : ℕ → Bool → Bool → List Str → Except Exc (List Str)
  | _, _, _, [] => .ok []
  | index, nodisplaySet, wmclassSet, line :: lines =>
    if c.isMain index then do
      let new ← mainLine k line
      let nodisplaySet := nodisplaySet || startsWith "NoDisplay=" line
      let wmclassSet := wmclassSet || startsWith "StartupWMClass=" line
      let rest ← customizeLines k c (index + 1) nodisplaySet wmclassSet lines
      .ok (new ++ (if index + 1 = c.stop then endMain k nodisplaySet wmclassSet else []) ++ rest)
    else do
      let rest ← customizeLines k c (index + 1) nodisplaySet wmclassSet lines
      .ok (otherLine k.zone line ++ rest)

/-- `outline` is the creation of the icon, if there is none at the path. -/
structure Arguments where
  zone : Zone
  iconsInstallDir : Str
  colored : Bool
  nodisplay : Bool
  userDe : Bool
  appId : Str
  outline : Str → Except Exc Unit

def customizeForZone (U : Unicode) (a : Arguments) (content : Str) : Except Exc Str := do
  let zoneName ← cleanZoneName U a.zone.name
  let c ← contents content
  let iconPath := if a.colored then c.iconPath a.iconsInstallDir zoneName else none
  (iconPath.map a.outline).getD (.ok ())
  let lines ← customizeLines ⟨a.zone,zoneName,iconPath,a.colored,a.nodisplay,a.userDe,a.appId⟩ c 0 false false c.lines
  .ok (['\n'].intercalate lines ++ ['\n'])

def exec : Str := "Exec"
theorem exec_eq : exec = 'E' :: "xec" := rfl

/-- The command `new` runs `orig` in the zone, or is `orig` if that runs in the zone by itself. -/
inductive Runs (zone : Zone) (orig new : Str) : Prop
  | prepended (blanks rest : Str) (hblanks : ∀ c ∈ blanks, KeyFile.isBlank c = true)
  (hrest : ∀ c ∈ rest, KeyFile.isBlank c = true)
      (h : new ++ rest = launcher zone ++ blanks ++ orig)
  | chromium (path : Str) (args : List Str) (hsplit : Shlex.split orig = .ok (path :: args))
    (hpath : contains "chromium" path = true)
      (h : new = launcher zone ++ Shlex.join (path :: waylandOptions ++ args))
  | same (rest : Str) (hrest : ∀ c ∈ rest, KeyFile.isBlank c = true) (h : new ++ rest = orig)
    (hlauncher : launcher zone <+: new)

/-- Each command of the text runs the one of the file in the zone. -/
def Confined (zone : Zone) (content text : Str) : Prop :=
  List.Forall₂ (Runs zone) (KeyFile.values exec (KeyFile.translate content)) (KeyFile.values exec text)

def Rewritten (main : Bool) (line : Str) : Prop :=
  "Exec=" <+: line ∧ (main = true → ∀ path args, Shlex.split (line.drop 5) = .ok (path :: args) →
    ¬ "padsi-cli" <:+ path)

/-- A command is read whole, up to blanks, and it is changed or already runs in the zone. -/
def SafeLine (zone : Zone) (main : Bool) (line : Str) : Prop :=
  KeyFile.value exec (KeyFile.chomp line) ≠ none →
    '\n' ∉ zone.name ∧ (∃ c, line.getLast? = some c ∧ (c = '\n' ∨ KeyFile.isBlank c = true)) ∧
      (Rewritten main line.dropLast ∨ ∃ command, KeyFile.value exec line.dropLast = some command ∧
        launcher zone <+: command)

def SafeLines (zone : Zone) (c : Contents) : ℕ → List Str → Prop
  | _, [] => True
  | index, line :: lines => SafeLine zone (c.isMain index) line ∧ SafeLines zone c (index + 1) lines

def Safe (zone : Zone) (content : Str) : Prop :=
  ∀ c, contents content = .ok c → SafeLines zone c 0 (KeyFile.readLines (KeyFile.translate content))

section
variable {U : Unicode} (hU : U.Lawful)
include hU

theorem plain_cleanZoneName {name zoneName : Str} (h : cleanZoneName U name = .ok zoneName) : '\n' ∉ zoneName := by
  unfold cleanZoneName at h
  split_ifs at h
  cases h
  intro hmem
  have ha := (mem_filter.1 hmem).2
  rw [hU.alnum_ascii '\n' (by decide)] at ha
  exact absurd ha (by decide)

end

theorem plain_joinPath {dir name : Str} (hdir : '\n' ∉ dir) (hname : '\n' ∉ name) : '\n' ∉ joinPath dir name := by
  unfold joinPath
  split_ifs
  · exact hname
  · simp [hdir,hname]
  · simp [hdir,hname]

variable {content s t : Str} {c : Contents} {args ls news : List Str} {k : Custom} {index : ℕ}
  {nodisplaySet wmclassSet : Bool}

theorem mem_of_mem_strip {c : Char} (h : c ∈ strip s) : c ∈ s :=
  (dropWhile_sublist _).mem (( rdropWhile_prefix isSpace _).mem h)

variable {line path : Str} {zone : Zone} {main : Bool}

theorem plain_iconPath (hl : ∀ line ∈ c.lines, '\n' ∉ line) {dir zoneName : Str} (hdir : '\n' ∉ dir)
    (hzone : '\n' ∉ zoneName) (h : c.iconPath dir zoneName = some path) : '\n' ∉ path := by
  obtain ⟨icon,hi,rfl⟩ := map_eq_some_iff.1 h
  obtain ⟨line,hli,rfl⟩ := map_eq_some_iff.1 hi
  have hp : '\n' ∉ strip (line.drop 5) := fun hmem =>
    hl line (mem_of_mem_take (mem_of_mem_drop (mem_of_find?_eq_some hli))) (mem_of_mem_drop (mem_of_mem_strip hmem))
  have hb : '\n' ∉ basename (strip (line.drop 5)) := fun hmem => hp ((rtakeWhile_suffix _ _).mem hmem)
  split_ifs
  · exact plain_joinPath hdir (by simp [hzone,hb])
  · exact plain_joinPath hdir (by simp [hzone,hp])

inductive Outcome (zone : Zone) (main : Bool) (line command : Str) : Str → Prop
  | prepended (hrewritten : Rewritten main line) (blanks : Str) (hblanks : ∀ c ∈ blanks, KeyFile.isBlank c = true)
      (h : line.drop 5 = blanks ++ command) : Outcome zone main line command (launcher zone ++ line.drop 5)
  | chromium (hrewritten : Rewritten main line) (blanks : Str) (hblanks : ∀ c ∈ blanks, KeyFile.isBlank c = true)
      (h : line.drop 5 = blanks ++ command) (path : Str) (args : List Str)
        (hsplit : Shlex.split (line.drop 5) = .ok (path :: args))
      (hpath : contains "chromium" path = true) :
      Outcome zone main line command (launcher zone ++ Shlex.join (path :: waylandOptions ++ args))
  | same (hnot : ¬ Rewritten main line) : Outcome zone main line command command

def LineValues (zone : Zone) (main : Bool) (line : Str) (news : List Str) : Prop :=
  (KeyFile.value exec line = none → news = []) ∧
    ∀ command, KeyFile.value exec line = some command → '\n' ∉ zone.name → ∃ new, news = [new] ∧
      Outcome zone main line command new

theorem head_of_startsWith {pat : Str} {a : Char} (ha : pat.head? = some a) (h : startsWith pat line = true) :
    line.head? = some a := by
  obtain ⟨t,rfl⟩ := startsWith_iff.1 h
  rw [head?_append,ha]
  rfl

theorem value_eq_none {a : Char} (hl : line.head? = some a) (ha : isBlank a = false) (hne : a ≠ 'E') :
    value exec line = none := by
  cases line with
  | nil => cases hl
  | cons b t =>
    cases hl
    rw [exec_eq,value_of_head ha hne]

theorem values_of_head {a : Char} (hl : line.head? = some a) (ha : isBlank a = false) (hne : a ≠ 'E')
    (hp : '\n' ∉ line) : values exec line = [] := by
  rw [values_line hp,value_eq_none hl ha hne]
  rfl

theorem value_exec (t : Str) : value exec ("Exec=" ++ t) = some (t.dropWhile isBlank) := by
  have hl : "Exec=" ++ t = exec ++ '=' :: t := rfl
  rw [hl, value_cons (by decide)]
  exact if_pos rfl

theorem plain_launcher (h : '\n' ∉ zone.name) : '\n' ∉ launcher zone := by
  have hw : '\n' ∉ "padsi-cli run ".toList := by decide
  intro hmem
  rcases mem_append.1 hmem with hmem | hmem
  · exact (mem_append.1 hmem).elim hw h
  · exact absurd (mem_singleton.1 hmem) (by decide)

theorem values_exec (hzone : '\n' ∉ zone.name) (ht : '\n' ∉ t) :
    values exec ("Exec=" ++ (launcher zone ++ t)) = [launcher zone ++ t] := by
  have hlauncher := plain_launcher hzone
  have hp : '\n' ∉ "Exec=" ++ (launcher zone ++ t) := by simp [hlauncher,ht]
  have hh : launcher zone ++ t = 'p' :: ("adsi-cli run " ++ zone.name ++ [' '] ++ t) := rfl
  rw [values_line hp, value_exec, hh, dropWhile_cons_of_neg (by decide)]
  rfl

theorem exists_blanks (t : Str) : ∃ blanks, (∀ c ∈ blanks, isBlank c = true) ∧ t = blanks ++ t.dropWhile isBlank :=
  ⟨t.takeWhile isBlank,fun _ hc => mem_takeWhile_imp hc,takeWhile_append_dropWhile.symm⟩

theorem lineValues_same (hp : '\n' ∉ line) (hnot : ¬ Rewritten main line) :
    LineValues zone main line ([line].flatMap (values exec)) := by
  rw [flatMap_singleton,values_line hp]
  refine ⟨fun hnone => by rw [hnone]; rfl,fun command hc _ => ⟨command,by rw [hc]; rfl,.same hnot⟩⟩

/-- A line of another key is written as lines of such keys. -/
theorem lineValues_other {pat : Str} {a : Char} (hs : startsWith pat line = true) (hpat : pat.head? = some a)
    (ha : isBlank a = false) (hne : a ≠ 'E') (hn : ∀ new ∈ news, new.head? = some a ∧ '\n' ∉ new) :
    LineValues zone main line (news.flatMap (values exec)) := by
  refine ⟨fun _ => flatMap_eq_nil_iff.2 fun new hnew => values_of_head (hn new hnew).1 ha hne (hn new hnew).2,
    fun command hc => ?_⟩
  rw [value_eq_none (head_of_startsWith hpat hs) ha hne] at hc
  cases hc

theorem rewritten_main (hsplit : Shlex.split t = .ok (path :: args)) (hc : ¬ "padsi-cli" <:+ path) :
    Rewritten true ("Exec=" ++ t) := by
  refine ⟨prefix_append _ _,fun _ path' args' hs' => ?_⟩
  have hs : Shlex.split t = .ok (path' :: args') := hs'
  rw [hsplit] at hs
  cases hs
  exact hc

theorem lineValues_exec {new : Str}
    (h : '\n' ∉ zone.name → ∃ w, values exec new = [w] ∧ Outcome zone main ("Exec=" ++ t) (t.dropWhile isBlank) w) :
    LineValues zone main ("Exec=" ++ t) ([new].flatMap (values exec)) := by
  rw [flatMap_singleton]
  refine ⟨fun hnone => ?_,fun command hv hzone => ?_⟩
  · rw [value_exec] at hnone
    cases hnone
  · rw [value_exec] at hv
    cases hv
    exact h hzone

theorem plain_join (ht : '\n' ∉ t) (hsplit : Shlex.split t = .ok (path :: args)) :
    '\n' ∉ Shlex.join (path :: waylandOptions ++ args) := by
  have hwo : ∀ w ∈ path :: args, '\n' ∉ w := by
    intro w hw hmem
    have hch : ∀ c ∈ t, (fun c => c ≠ '\n') c := fun c hc heq => ht (heq ▸ hc)
    exact Shlex.split_chars (by decide) hch hsplit w hw '\n' hmem rfl
  have ho : ∀ w ∈ waylandOptions, '\n' ∉ w := by
    intro w hw
    rcases mem_cons.1 hw with rfl | hw
    · decide
    · rw [mem_singleton.1 hw]
      decide
  have ha : ∀ w ∈ path :: waylandOptions ++ args, ∀ c ∈ w, (fun c => c ≠ '\n') c := by
    intro w hw c hc heq
    rw [heq] at hc
    rcases mem_append.1 hw with hw | hw
    · rcases mem_cons.1 hw with rfl | hw
      · exact hwo w mem_cons_self hc
      · exact ho w hw hc
    · exact hwo w (mem_cons_of_mem _ hw) hc
  exact fun hmem => Shlex.join_chars (by decide) (by decide) (by decide) ha '\n' hmem rfl

theorem customizeExec_values {new : Str} (hp : '\n' ∉ line) (he : "Exec=" <+: line)
    (h : customizeExec zone line = .ok new) : LineValues zone true line ([new].flatMap (values exec)) := by
  obtain ⟨t,rfl⟩ := he
  have ht : '\n' ∉ t := fun hmem => hp (mem_append_right _ hmem)
  obtain ⟨blanks,hblanks,hco⟩ := exists_blanks t
  unfold customizeExec at h
  have hd : ("Exec=" ++ t).drop 5 = t := rfl
  rw [hd] at h
  cases hsplit : Shlex.split t with
  | error e =>
    rw [hsplit] at h
    cases h
  | ok words =>
    rw [hsplit] at h
    cases words with
    | nil => cases h
    | cons path args =>
      dsimp only at h
      split_ifs at h with hc hch
      · cases h
        refine lineValues_same hp fun hrewritten => ?_
        exact hrewritten.2 rfl path args hsplit hc
      · cases h
        exact lineValues_exec fun hzone =>
          ⟨_,values_exec hzone (plain_join ht hsplit),
            .chromium (rewritten_main hsplit hc) blanks hblanks hco path args hsplit hch⟩
      · cases h
        exact lineValues_exec fun hzone =>
          ⟨_,values_exec hzone ht,.prepended (rewritten_main hsplit hc) blanks hblanks hco⟩

structure Custom.Plain (k : Custom) : Prop where
  zoneName : '\n' ∉ k.zoneName
  iconPath : ∀ path, k.iconPath = some path → '\n' ∉ path

theorem Custom.Plain.wmClass (h : k.Plain) {c : Str} (hc : k.wmClass = some c) : '\n' ∉ c := by
  obtain ⟨w,hw,rfl⟩ := map_eq_some_iff.1 hc
  have hp : '\n' ∉ w := by
    obtain ⟨e,he,rfl⟩ : ∃ e ∈ startupWMClass, e.2 = w := by
      unfold startupWMClass at hw ⊢
      rw [lookup_cons] at hw
      split at hw
      · cases hw
        exact ⟨_,mem_cons_self,rfl⟩
      · cases hw
    rw [mem_singleton.1 he]
    decide
  simp [h.zoneName,hp]

/-- The commands in what is written for a line of the main section are outcomes for its own. -/
theorem mainLine_values (hk : k.Plain) (hp : '\n' ∉ line) (h : mainLine k line = .ok news) :
    LineValues k.zone true line (news.flatMap (values exec)) := by
  have hkeep : ∀ {pat : Str}, startsWith pat line = true → ∀ a, pat.head? = some a → isBlank a = false → a ≠ 'E' →
      LineValues k.zone true line ([line].flatMap (values exec)) := fun hs _ hpat ha hne =>
    lineValues_other hs hpat ha hne (forall_mem_singleton.2 ⟨head_of_startsWith hpat hs,hp⟩)
  have hnamed : (startsWith "Name=" line || isLocalizedName line) = true →
      ∃ pat : Str, startsWith pat line = true ∧ pat.head? = some 'N' := by
    intro hname
    rcases Bool.or_eq_true_iff.1 hname with hname | hname
    · exact ⟨_,hname,rfl⟩
    · exact ⟨_,(Bool.and_eq_true_iff.1 hname).1,rfl⟩
  unfold mainLine at h
  split_ifs at h with hi hcol hd hname hcol he hdi hhid hc hm hv hver
  · cases h
    refine lineValues_other hi (a := 'I') rfl (by decide) (by decide) fun new hnew => ?_
    obtain ⟨path,hpath,rfl⟩ := map_eq_some_iff.1 (mem_toList.1 hnew)
    exact ⟨rfl,by simp [hk.iconPath path hpath]⟩
  · cases h
    exact hkeep hi 'I' rfl (by decide) (by decide)
  · cases h
    exact lineValues_other hd (a := 'D') rfl (by decide) (by decide) (by decide)
  · cases h
    obtain ⟨pat,hs,hpat⟩ := hnamed hname
    have hw : '\n' ∉ " (".toList := by decide
    refine lineValues_other hs hpat (by decide) (by decide)
      (forall_mem_singleton.2 ⟨by simp [head_of_startsWith hpat hs],?_⟩)
    simp only [mem_append,mem_singleton,not_or]
    exact ⟨⟨⟨hp,hw⟩,hk.zoneName⟩,by decide⟩
  · cases h
    obtain ⟨pat,hs,hpat⟩ := hnamed hname
    exact hkeep hs 'N' hpat (by decide) (by decide)
  · cases hn : customizeExec k.zone line with
    | error e =>
      rw [hn] at h
      cases h
    | ok new =>
      rw [hn] at h
      cases h
      exact customizeExec_values hp (startsWith_iff.1 he) hn
  · cases h
    exact lineValues_other hdi (a := 'N') rfl (by decide) (by decide) (by decide)
  · cases h
    exact hkeep hdi 'N' rfl (by decide) (by decide)
  · cases h
    refine lineValues_other hc (a := 'S') rfl (by decide) (by decide)
      (forall_mem_singleton.2 ⟨rfl,fun hmem => (mem_append.1 hmem).elim (by decide) ?_⟩)
    cases hwm : k.wmClass with
    | some c => exact hk.wmClass hwm
    | none =>
      have hrest : '\n' ∉ line.drop 15 := fun hmem => hp (mem_of_mem_drop hmem)
      simp [hk.zoneName,hrest]
  · cases h
    exact lineValues_other hm (a := 'M') rfl (by decide) (by decide) (by simp)
  · cases h
    exact hkeep hv 'V' rfl (by decide) (by decide)
  · cases h
    exact lineValues_other hv (a := 'V') rfl (by decide) (by decide) (by simp)
  · cases h
    exact lineValues_same hp fun hrewritten => he (startsWith_iff.2 hrewritten.1)

theorem otherLine_values (zone : Zone) (hp : '\n' ∉ line) :
    LineValues zone false line ((otherLine zone line).flatMap (values exec)) := by
  unfold otherLine
  split_ifs with he hm
  · obtain ⟨t,rfl⟩ := startsWith_iff.1 he
    obtain ⟨blanks,hblanks,hc⟩ := exists_blanks t
    have ht : '\n' ∉ t := fun hmem => hp (mem_append_right _ hmem)
    refine lineValues_exec fun hzone => ⟨_,values_exec hzone ht,.prepended ⟨prefix_append _ _,nofun⟩ blanks hblanks hc⟩
  · exact lineValues_other hm (a := 'M') rfl (by decide) (by decide) (by simp)
  · exact lineValues_same hp fun hrewritten => he (startsWith_iff.2 hrewritten.1)

theorem endMain_values (hk : k.Plain) (nodisplaySet wmclassSet : Bool) :
    (endMain k nodisplaySet wmclassSet).flatMap (values exec) = [] := by
  unfold endMain
  rw [flatMap_append,append_eq_nil_iff]
  constructor
  · split_ifs
    · exact (flatMap_singleton ..).trans (values_of_head (a := 'N') rfl (by decide) (by decide) (by decide))
    · rfl
  · split_ifs
    · rfl
    · cases hwm : k.wmClass with
      | none => rfl
      | some c =>
        have hl : '\n' ∉ "StartupWMClass=" ++ c := fun hmem => (mem_append.1 hmem).elim (by decide) (hk.wmClass hwm)
        exact (flatMap_singleton ..).trans (values_of_head (a := 'S') rfl (by decide) (by decide) hl)

theorem customizeLines_cons (hk : k.Plain) {lines : List Str}
    (hp : '\n' ∉ line) (h : customizeLines k c index nodisplaySet wmclassSet (line :: lines) = .ok news) :
    ∃ commands nodisplaySet wmclassSet rest, LineValues k.zone (c.isMain index) line commands ∧
      customizeLines k c (index + 1) nodisplaySet wmclassSet lines = .ok rest ∧
        news.flatMap (values exec) = commands ++ rest.flatMap (values exec) := by
  unfold customizeLines at h
  cases hm : c.isMain index with
  | true =>
    rw [if_pos hm] at h
    obtain ⟨new,hn,h⟩ := bind_eq_ok.1 h
    obtain ⟨rest,hrest,h⟩ := bind_eq_ok.1 h
    cases h
    refine ⟨_,_,_,rest,mainLine_values hk hp hn,hrest,?_⟩
    rw [flatMap_append,flatMap_append]
    have he : ∀ set set', (if index + 1 = c.stop then endMain k set set' else []).flatMap (values exec) = [] := by
      intro set set'
      split_ifs
      · exact endMain_values hk set set'
      · rfl
    rw [he,append_nil]
  | false =>
    rw [if_neg (by simp [hm])] at h
    obtain ⟨rest,hrest,h⟩ := bind_eq_ok.1 h
    cases h
    exact ⟨_,_,_,rest,otherLine_values k.zone hp,hrest,flatMap_append⟩

def ink (s : Str) : ℕ := s.countP fun c => !KeyFile.isBlank c
theorem ink_append (s t : Str) : ink (s ++ t) = ink s + ink t := countP_append
theorem ink_blanks (h : ∀ c ∈ s, isBlank c = true) : ink s = 0 := countP_eq_zero.2 fun c hc => by simp [h c hc]
theorem ink_singleton {c : Char} (h : isBlank c = false) : ink [c] = 1 := by simp [ink,h]

theorem ink_launcher (zone : Zone) : 2 ≤ ink (launcher zone) := by
  have hw : 2 ≤ ink "padsi-cli run " := by decide
  change 2 ≤ ink ("padsi-cli run " ++ zone.name ++ [' '])
  rw [ink_append,ink_append]
  exact Nat.le_trans hw (Nat.le_trans (Nat.le_add_right _ _) (Nat.le_add_right _ _))

theorem shlex_blanks (h : ∀ c ∈ s, isBlank c = true) : ∀ c ∈ s, Shlex.isBlank c = true := by
  intro c hc
  have hb := h c hc
  simp only [isBlank,Bool.or_eq_true,decide_eq_true_eq] at hb
  rcases hb with rfl | rfl
  all_goals decide

theorem not_chromium (h : launcher zone <+: s) (hsplit : Shlex.split s = .ok (path :: args)) :
    ¬ contains "chromium" path = true := by
  obtain ⟨t,rfl⟩ := h
  have hfirst : "padsi-cli ".toList.foldl Shlex.step Shlex.start = ⟨.blank,["padsi-cli"]⟩ := rfl
  have ht : launcher zone ++ t = "padsi-cli " ++ ("run " ++ zone.name ++ [' '] ++ t) := rfl
  rw [ht] at hsplit
  obtain ⟨rest,hrest⟩ := Shlex.split_append hfirst hsplit
  cases hrest
  decide

section
variable {zone : Zone} {main : Bool} {line command new : Str}

/-- A command that is read whole runs in the zone if it is changed, or does so by itself. -/
theorem Outcome.runs_iff (h : Outcome zone main line command new) {rest : Str} (hrest : ∀ c ∈ rest, isBlank c = true) :
    Runs zone (command ++ rest) new ↔ Rewritten main line ∨ launcher zone <+: command := by
  cases h with
  | prepended hrewritten blanks hblanks hl =>
    refine iff_of_true ?_ (.inl hrewritten)
    refine .prepended blanks rest hblanks hrest ?_
    rw [hl]
    simp
  | chromium hrewritten blanks hblanks hl path args hsplit hpath =>
    refine iff_of_true ?_ (.inl hrewritten)
    rw [hl,Shlex.split_append_left (shlex_blanks hblanks)] at hsplit
    exact .chromium path args (Shlex.split_append_right hsplit (shlex_blanks hrest)) hpath rfl
  | same hnot =>
    constructor
    · intro hr
      refine .inr ?_
      cases hr with
      | prepended blanks rest' hblanks hr' heq =>
        have hi := congrArg ink heq
        have hlauncher := ink_launcher zone
        simp only [ink_append,ink_blanks hblanks,ink_blanks hrest,ink_blanks hr'] at hi
        omega
      | chromium path args _ _ heq => exact ⟨_,heq.symm⟩
      | same rest' _ _ hlauncher => exact hlauncher
    · rintro (hrewritten | hlauncher)
      · exact absurd hrewritten hnot
      · exact .same rest hrest rfl hlauncher

theorem Outcome.runs_whole_iff (h : Outcome zone main line command new) :
    Runs zone command new ↔ Rewritten main line ∨ launcher zone <+: command := by
  have hr := h.runs_iff (show ∀ c ∈ ([] : Str), isBlank c = true from nofun)
  rwa [append_nil] at hr

theorem split_join_wayland (path : Str) (args : List Str) :
    Shlex.split (Shlex.join (path :: waylandOptions ++ args)) = .ok (path :: waylandOptions ++ args) :=
  Shlex.split_join _

/-- When the last character of a command was cut off, what is written does not run it. -/
theorem Outcome.not_runs (h : Outcome zone main line command new) {c : Char} (hc : isBlank c = false)
    (hs : Shlex.isBlank c = false) : ¬ Runs zone (command ++ [c]) new := by
  have hlauncher := ink_launcher zone
  -- One more character than a command with two words less or more.
  have hw : ∀ {words words' : List Str}, Shlex.split command = .ok words → Shlex.split (command ++ [c]) = .ok words' →
      words' ≠ words ∧ words.length ≤ words'.length ∧ words'.length ≤ words.length + 1 := by
    intro words words' hsplit hs'
    rw [Shlex.split_append_singleton] at hs'
    exact Shlex.finish_step_of_not_blank hsplit hs hs'
  cases h with
  | prepended _ blanks hblanks hl =>
    rw [hl]
    rintro (⟨blanks',rest,hb',hrest,heq⟩ | ⟨path,args,hsplit,_,heq⟩ | ⟨rest,hrest,heq,_⟩)
    · have hi := congrArg ink heq
      simp only [ink_append,ink_blanks hblanks,ink_blanks hb',ink_blanks hrest,ink_singleton hc] at hi
      omega
    · have hj := split_join_wayland path args
      rw [← append_cancel_left heq,Shlex.split_append_left (shlex_blanks hblanks)] at hj
      have hle := (hw hj hsplit).2.1
      simp [waylandOptions] at hle
    · have hi := congrArg ink heq
      simp only [ink_append,ink_blanks hblanks,ink_blanks hrest,ink_singleton hc] at hi
      omega
  | chromium _ blanks hblanks hl path args hsplit hpath =>
    rw [hl,Shlex.split_append_left (shlex_blanks hblanks)] at hsplit
    rintro (⟨blanks',rest,hb',hrest,heq⟩ | ⟨path',args',hs',_,heq⟩ | ⟨rest,hrest,heq,_⟩)
    · rw [append_assoc,append_assoc] at heq
      have hj := Shlex.split_append_right (split_join_wayland path args) (shlex_blanks hrest)
      rw [append_cancel_left heq,Shlex.split_append_left (shlex_blanks hb')] at hj
      have hle := (hw hsplit hj).2.2
      simp [waylandOptions] at hle
    · have hj := split_join_wayland path args
      rw [append_cancel_left heq,split_join_wayland] at hj
      have hsa : path' :: args' = path :: args := by
        injection hj with hj
        simpa [waylandOptions] using hj
      exact (hw hsplit hs').1 hsa
    · -- The command is longer than the start, so it has it.
      have hb : launcher zone <+: command ++ [c] := by
        rw [← heq,append_assoc]
        exact prefix_append _ _
      have hne : Shlex.join (path :: waylandOptions ++ args) ≠ [] := by
        intro hn
        have hj := split_join_wayland path args
        rw [hn] at hj
        cases hj
      have hle := congrArg length heq
      simp only [length_append,length_singleton] at hle
      have hpo := length_pos_iff.2 hne
      have hp : launcher zone <+: command :=
        prefix_of_prefix_length_le hb (prefix_append command [c]) (by omega)
      exact not_chromium hp hsplit hpath
  | same _ =>
    rintro (⟨blanks,rest,hblanks,hrest,heq⟩ | ⟨path,args,hsplit,hpath,heq⟩ | ⟨rest,hrest,heq,_⟩)
    · have hi := congrArg ink heq
      simp only [ink_append,ink_blanks hblanks,ink_blanks hrest,ink_singleton hc] at hi
      omega
    · have hp : launcher zone <+: command ++ [c] := ⟨_,by rw [heq,append_assoc]⟩
      exact not_chromium hp hsplit hpath
    · have hi := congrArg ink heq
      simp only [ink_append,ink_blanks hrest,ink_singleton hc] at hi
      omega

end

section
variable {zone : Zone} {main : Bool} {p : Str} {commands : List Str}

theorem safeLine_of_none {line : Str} (h : value exec (chomp line) = none) : SafeLine zone main line :=
  fun hne => absurd h hne

theorem safeLine_iff (hzone : '\n' ∉ zone.name) {command : Str} (hv : value exec p = some command) {c : Char}
    (hc : c = '\n' ∨ isBlank c = true) (hs : value exec (chomp (p ++ [c])) ≠ none) :
    SafeLine zone main (p ++ [c]) ↔ Rewritten main p ∨ launcher zone <+: command := by
  rw [SafeLine,dropLast_concat,getLast?_concat]
  constructor
  · intro h
    obtain ⟨_,_,hrewritten | ⟨command',hc',hlauncher⟩⟩ := h hs
    · exact .inl hrewritten
    · rw [hv] at hc'
      cases hc'
      exact .inr hlauncher
  · intro hor _
    exact ⟨hzone,⟨c,rfl,hc⟩,hor.imp_right fun hlauncher => ⟨command,hv,hlauncher⟩⟩

theorem forall₂_terminated_iff (hzone : '\n' ∉ zone.name) (hp : '\n' ∉ p) (h : LineValues zone main p commands)
    (origs news : List Str) :
    List.Forall₂ (Runs zone) ((value exec p).toList ++ origs) (commands ++ news) ↔
      SafeLine zone main (p ++ ['\n']) ∧ List.Forall₂ (Runs zone) origs news := by
  have hc := chomp_newline hp
  cases hv : value exec p with
  | none =>
    rw [h.1 hv]
    exact (and_iff_right (safeLine_of_none (by rw [hc,hv]))).symm
  | some command =>
    obtain ⟨new,rfl,ho⟩ := h.2 command hv hzone
    rw [safeLine_iff hzone hv (.inl rfl) (by rw [hc,hv]; exact some_ne_none _),← ho.runs_whole_iff]
    exact forall₂_cons

theorem forall₂_last_iff (hzone : '\n' ∉ zone.name) {c : Char} (hp : '\n' ∉ p ++ [c]) (hcr : c ≠ '\r')
    (h : LineValues zone main p commands) :
    List.Forall₂ (Runs zone) (value exec (p ++ [c])).toList commands ↔ SafeLine zone main (p ++ [c]) := by
  have hch := chomp_of_not_mem hp
  have hc : c ≠ '\n' := fun heq => hp (by simp [heq])
  cases hr : value exec p with
  | none =>
    rw [h.1 hr]
    cases hv : value exec (p ++ [c]) with
    | none => exact iff_of_true .nil (safeLine_of_none (hch.symm ▸ hv))
    | some orig =>
      refine iff_of_false nofun fun hs => ?_
      have heq : c = '=' := Classical.byContradiction fun hne =>
        value_ne_none_of_concat hne (by rw [hv]; exact some_ne_none _) hr
      obtain ⟨_,⟨d,hd,he⟩,_⟩ := hs (by rw [hch,hv]; exact some_ne_none _)
      rw [getLast?_concat] at hd
      cases hd
      rw [heq] at he
      exact absurd he (by decide)
  | some command =>
    obtain ⟨new,rfl,ho⟩ := h.2 command hr hzone
    obtain ⟨rest,hv,hrest⟩ := value_concat hr c
    have hso : value exec (chomp (p ++ [c])) ≠ none := by
      rw [hch,hv]
      exact some_ne_none _
    have hf : List.Forall₂ (Runs zone) (value exec (p ++ [c])).toList [new] ↔ Runs zone (command ++ rest) new := by
      rw [hv]
      exact forall₂_cons.trans (and_iff_left .nil)
    rw [hf]
    cases hb : isBlank c with
    | true =>
      have hre : ∀ d ∈ rest, isBlank d = true := by
        rcases hrest with rfl | ⟨rfl,_⟩
        · intro d hd
          rw [mem_singleton.1 hd]
          exact hb
        · nofun
      rw [ho.runs_iff hre,safeLine_iff hzone hr (.inr hb) hso]
    | false =>
      have hon : rest = [c] := hrest.resolve_right fun hem => by rw [hb] at hem; cases hem.2
      have hsh : Shlex.isBlank c = false := by
        simp only [isBlank,Bool.or_eq_false_iff,decide_eq_false_iff_not] at hb
        simp [Shlex.isBlank,hb,hcr,hc]
      rw [hon]
      refine iff_of_false (ho.not_runs hb hsh) fun hs => ?_
      obtain ⟨_,⟨d,hd,he⟩,_⟩ := hs hso
      rw [getLast?_concat] at hd
      cases hd
      rcases he with he | he
      · exact hc he
      · rw [hb] at he
        cases he

end

theorem forall₂_iff_safeLines (hk : k.Plain) (hzone : '\n' ∉ k.zone.name) (hli : KeyFile.Lines ls)
    (hcr : ∀ l ∈ ls, '\r' ∉ l)
    (h : customizeLines k c index nodisplaySet wmclassSet (ls.map dropLast) = .ok news) :
    List.Forall₂ (Runs k.zone) (ls.filterMap fun l => value exec (chomp l)) (news.flatMap (values exec)) ↔
      SafeLines k.zone c index ls := by
  induction hli generalizing index nodisplaySet wmclassSet news with
  | nil =>
    cases h
    exact iff_of_true .nil trivial
  | @last p hp hne =>
    obtain ⟨q,d,rfl⟩ := (eq_nil_or_concat p).resolve_left hne
    rw [concat_eq_append] at hp h hcr ⊢
    rw [map_singleton,dropLast_concat] at h
    have hq : '\n' ∉ q := fun hmem => hp (mem_append_left _ hmem)
    have hd : d ≠ '\r' := fun heq => hcr _ (mem_singleton_self _) (by simp [heq])
    obtain ⟨commands,_,_,rest,hc,hrest,hn⟩ := customizeLines_cons hk hq h
    cases hrest
    rw [hn,flatMap_nil,append_nil,SafeLines,SafeLines,and_iff_left trivial,← forall₂_last_iff hzone hp hd hc]
    rw [filterMap_cons,chomp_of_not_mem hp]
    cases value exec (q ++ [d]) with
    | none => exact Iff.rfl
    | some v => exact Iff.rfl
  | @cons p ls hp _ ih =>
    rw [map_cons,dropLast_concat] at h
    obtain ⟨commands,_,_,rest,hc,hrest,hn⟩ := customizeLines_cons hk hp h
    rw [hn, SafeLines, ← ih (fun l hl => hcr l (mem_cons_of_mem _ hl)) hrest, ← forall₂_terminated_iff hzone hp hc]
    rw [filterMap_cons,chomp_newline hp]
    cases value exec p with
    | none => exact Iff.rfl
    | some v => exact Iff.rfl

theorem Runs.launcher_chars {orig new : Str} (h : Runs zone orig new) (hzone : '\n' ∈ zone.name) : '\n' ∈ new := by
  have hlauncher : '\n' ∈ launcher zone := mem_append_left _ (mem_append_right _ hzone)
  cases h with
  | prepended blanks rest _ hrest heq =>
    have hmem : '\n' ∈ new ++ rest := by
      rw [heq]
      exact mem_append_left _ (mem_append_left _ hlauncher)
    refine (mem_append.1 hmem).resolve_right fun hmem => ?_
    exact absurd (hrest _ hmem) (by decide)
  | chromium path args _ _ heq =>
    rw [heq]
    exact mem_append_left _ hlauncher
  | same rest _ _ hs => exact hs.subset hlauncher

theorem commands_eq_nil (hk : k.Plain) (hp : ∀ l ∈ ls, '\n' ∉ l) (hnone : ∀ l ∈ ls, value exec l = none)
    (h : customizeLines k c index nodisplaySet wmclassSet ls = .ok news) : news.flatMap (values exec) = [] := by
  induction ls generalizing index nodisplaySet wmclassSet news with
  | nil =>
    cases h
    rfl
  | cons l ls ih =>
    obtain ⟨hl,hls⟩ := forall_mem_cons.1 hp
    obtain ⟨hv,hva⟩ := forall_mem_cons.1 hnone
    obtain ⟨commands,_,_,rest,hc,hrest,hn⟩ := customizeLines_cons hk hl h
    rw [hn,hc.1 hv,ih hls hva hrest]
    rfl

theorem lines_contents (h : contents content = .ok c) :
    c.lines = (readLines (translate content)).map dropLast := by
  unfold contents at h
  dsimp only at h
  split at h
  · cases h
  · cases h
    rfl

theorem plain_lines (h : contents content = .ok c) : ∀ line ∈ c.lines, '\n' ∉ line := by
  intro line hli
  rw [lines_contents h] at hli
  obtain ⟨l,hl,rfl⟩ := mem_map.1 hli
  obtain ⟨q,d,rfl,hq,_⟩ := (lines_readLines _).exists_concat hl
  rwa [dropLast_concat]

theorem value_dropLast (hli : KeyFile.Lines ls) {l : Str} (hl : l ∈ ls) (h : value exec (chomp l) = none) :
    value exec l.dropLast = none := by
  obtain ⟨q,d,rfl,hq,rfl | hp⟩ := hli.exists_concat hl
  · rw [chomp_newline hq] at h
    rwa [dropLast_concat]
  · rw [chomp_of_not_mem hp] at h
    rw [dropLast_concat]
    cases hr : value exec q with
    | none => rfl
    | some v =>
      obtain ⟨rest,hv,_⟩ := value_concat hr d
      rw [h] at hv
      cases hv

theorem safeLines_none (hzone : '\n' ∈ zone.name) (h : SafeLines zone c index ls) :
    ∀ l ∈ ls, value exec (chomp l) = none := by
  induction ls generalizing index with
  | nil => nofun
  | cons l ls ih =>
    refine forall_mem_cons.2 ⟨?_,ih h.2⟩
    exact Classical.byContradiction fun hne => (h.1 hne).1 hzone

theorem safeLines_of_none (h : ∀ l ∈ ls, value exec (chomp l) = none) : SafeLines zone c index ls := by
  induction ls generalizing index with
  | nil => trivial
  | cons l ls ih =>
    obtain ⟨hl,hls⟩ := forall_mem_cons.1 h
    exact ⟨safeLine_of_none hl,ih hls⟩

theorem exists_runs {origs : List Str} (h : List.Forall₂ (Runs zone) origs news) (hne : origs ≠ []) :
    ∃ new ∈ news, ∃ orig, Runs zone orig new := by
  cases h with
  | nil => exact absurd rfl hne
  | cons hr _ => exact ⟨_,mem_cons_self,_,hr⟩

/-- The commands of the text run in the zone exactly if those of the file are safe. -/
theorem confined_iff_safe {U : Unicode} (hU : U.Lawful) {a : Arguments} (hdir : '\n' ∉ a.iconsInstallDir)
    {content text : Str}
    (h : customizeForZone U a content = .ok text) : Confined a.zone content text ↔ Safe a.zone content := by
  obtain ⟨zoneName,hz,h⟩ := bind_eq_ok.1 h
  obtain ⟨c,hc,h⟩ := bind_eq_ok.1 h
  obtain ⟨_,_,h⟩ := bind_eq_ok.1 h
  obtain ⟨news,hn,h⟩ := bind_eq_ok.1 h
  cases h
  have hp := plain_cleanZoneName hU hz
  have hk : Custom.Plain ⟨a.zone,zoneName,if a.colored then c.iconPath a.iconsInstallDir zoneName else none,
      a.colored,a.nodisplay,a.userDe,a.appId⟩ := by
    refine ⟨hp,fun path hpath => ?_⟩
    dsimp only at hpath
    split_ifs at hpath
    exact plain_iconPath (plain_lines hc) hdir hp hpath
  have hli := lines_readLines (translate content)
  have hs : Safe a.zone content ↔ SafeLines a.zone c 0 (readLines (translate content)) := by
    constructor
    · exact fun ha => ha c hc
    · intro hli c' hc'
      rw [hc] at hc'
      cases hc'
      exact hli
  rw [hs,Confined,values_unlines,← filterMap_readLines]
  by_cases hzone : '\n' ∈ a.zone.name
  · constructor
    · -- A command has the name of the zone, but no newline.
      intro hf
      refine safeLines_of_none fun l hl => ?_
      cases hv : value exec (chomp l) with
      | none => rfl
      | some orig =>
        have hmem : orig ∈ (readLines (translate content)).filterMap fun l => value exec (chomp l) :=
          mem_filterMap.2 ⟨l,hl,hv⟩
        obtain ⟨new,hne,_,hr⟩ := exists_runs hf (ne_nil_of_mem hmem)
        obtain ⟨line,_,hne⟩ := mem_flatMap.1 hne
        exact absurd (hr.launcher_chars hzone) (not_mem_of_mem_values hne)
    · intro hls
      have hnone := safeLines_none hzone hls
      have hre : ∀ line ∈ c.lines, value exec line = none := by
        intro line hln
        rw [lines_contents hc] at hln
        obtain ⟨l,hl,rfl⟩ := mem_map.1 hln
        exact value_dropLast hli hl (hnone l hl)
      rw [commands_eq_nil hk (plain_lines hc) hre hn,filterMap_eq_nil_iff.2 hnone]
      exact .nil
  · rw [lines_contents hc] at hn
    refine forall₂_iff_safeLines hk hzone hli (fun l hl hmem => ?_) hn
    rcases mem_readLines hl hmem with heq | hmem
    · exact absurd heq (by decide)
    · exact not_mem_translate content hmem

def work : Arguments := ⟨⟨"work",[]⟩,"/var/padsi/icons",false,false,true,"viewer",fun _ => .ok ()⟩
def entryOf (line : String) : Str := "[Desktop Entry]\n" ++ line.toList ++ ['\n']

theorem evince_confined :
    customizeForZone Unicode.ascii work (entryOf "Exec=evince %U") = .ok (entryOf "Exec=padsi-cli run work evince %U") ∧
    Confined work.zone (entryOf "Exec=evince %U") (entryOf "Exec=padsi-cli run work evince %U") := by
  have ht : customizeForZone Unicode.ascii work (entryOf "Exec=evince %U") =
    .ok (entryOf "Exec=padsi-cli run work evince %U") := rfl
  refine ⟨ht,(confined_iff_safe Unicode.lawful_ascii (by decide) ht).2 fun c hc => ?_⟩
  have hco : contents (entryOf "Exec=evince %U") = .ok ⟨["[Desktop Entry]".toList,"Exec=evince %U".toList],0,2⟩ := rfl
  rw [hco] at hc
  cases hc
  have hrewritten : Rewritten true "Exec=evince %U".toList := by
    refine ⟨by decide,fun _ path args hsplit => ?_⟩
    have hw : Shlex.split ("Exec=evince %U".toList.drop 5) = .ok ["evince".toList,"%U".toList] := rfl
    rw [hw] at hsplit
    cases hsplit
    decide
  exact ⟨fun hne => absurd rfl hne,fun _ => ⟨by decide,⟨'\n',rfl,.inl rfl⟩,.inl hrewritten⟩,trivial⟩

theorem not_confined_of_same (line command : Str) (hnot : ¬ Rewritten true line)
    (hco : ¬ launcher work.zone <+: command) {text : Str}
    (ho : values exec (translate content) = [command]) (hn : values exec text = [command]) :
    ¬ Confined work.zone content text := by
  intro hc
  rw [Confined,ho,hn] at hc
  have hou : Outcome work.zone true line command command := .same hnot
  exact (hou.runs_whole_iff.1 (forall₂_cons.1 hc).1).elim hnot hco

/-- A command with blanks before the equals sign stays, and so does one whose program has a certain name. -/
theorem commands_escape :
    (customizeForZone Unicode.ascii work (entryOf "Exec = evil") = .ok (entryOf "Exec = evil") ∧
      ¬ Confined work.zone (entryOf "Exec = evil") (entryOf "Exec = evil")) ∧
    customizeForZone Unicode.ascii work (entryOf "Exec=/tmp/padsi-cli") = .ok (entryOf "Exec=/tmp/padsi-cli") ∧
      ¬ Confined work.zone (entryOf "Exec=/tmp/padsi-cli") (entryOf "Exec=/tmp/padsi-cli") := by
  refine ⟨⟨rfl,?_⟩,rfl,?_⟩
  · refine not_confined_of_same "Exec = evil".toList "evil".toList (fun hrewritten => ?_) (by decide) rfl rfl
    exact absurd hrewritten.1 (by decide)
  · refine not_confined_of_same "Exec=/tmp/padsi-cli".toList "/tmp/padsi-cli".toList (fun hrewritten => ?_)
      (by decide) rfl rfl
    exact hrewritten.2 rfl "/tmp/padsi-cli".toList [] rfl (by decide)

end Padsi.Desktop
