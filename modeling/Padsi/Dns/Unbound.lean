import Padsi.Dns.Rules
import Padsi.Lib.Utf8

/-! # The module of the DNS server

The targets of the `CNAME` records of the answers are added to the allowed names.
-/
namespace Padsi.Dns.Unbound
open Text Python Regex Fw List

structure PatternRule where
  allow : Bool
  pattern : Pattern

structure Lists where
  allow : List Str
  deny : List Str
  patterns : List PatternRule

def Lists.add (l : Lists) (entry : ResolvEntry) : Lists :=
  match entry.query with
  | none => l
  | some query =>
    if '*' ∈ query then
      if h : (compile (domainToRegex query)).isSome = true then
        { l with patterns := l.patterns ++ [⟨decide (entry.action = .allow),domainToRegex query,h⟩] }
      else l
    else if entry.action = .allow then { l with allow := l.allow ++ [query] }
    else { l with deny := l.deny ++ [query] }

def init (entries : List ResolvEntry) : Lists := entries.foldl Lists.add ⟨[],[],[]⟩

def Lists.firstPattern (U : Unicode) (l : Lists) (qname : Str) : Option PatternRule :=
  l.patterns.find? fun rule => rule.pattern.isMatch U qname

def Lists.isAllowed (U : Unicode) (l : Lists) (qname : Str) : Bool :=
  if qname ∈ l.allow then true
  else if qname ∈ l.deny then false
  else
    match l.firstPattern U qname with
    | none => false
    | some rule => rule.allow

def hex (n : ℕ) : Str := Nat.toDigits 16 n
def hexByte (n : ℕ) : Str := if n < 16 then '0' :: hex n else hex n

def getARecord (data : List UInt8) : Option Str :=
  if data.take 2 = [0,4] ∧ (data.drop 2).length = 4 then
    some (['.'].intercalate ((data.drop 2).map fun c => Nat.toDigits 10 c.toNat))
  else none

/-- Each of the eight parts is read at its own index, not at twice it. -/
def getAaaaRecord (data : List UInt8) : Option Str := do
  let parts ← (range 8).mapM fun index => do
    let a ← (data.drop 2)[index]?
    let b ← (data.drop 2)[index+1]?
    return if a = 0 then hex b.toNat else hex a.toNat ++ hexByte b.toNat
  return [':'].intercalate parts

def labels : ℕ → List UInt8 → Option (List Str)
  | _, [] => some []
  | skip + 1, _ :: rdata => labels skip rdata
  | 0, b :: rdata => do
    let part ← Utf8.decode (rdata.take b.toNat)
    let parts ← labels b.toNat rdata
    return if part = [] then parts else part :: parts

def getCnameRecord (data : List UInt8) : Option Str := do return ['.'].intercalate (← labels 0 (data.drop 2))

def recordOf : Option Str → Option Str
  | some [] => none
  | record => record

structure RRset where
  rrsetClass : Str
  type : Str
  data : List (ℕ × List UInt8)

structure Resolved where
  ttl : ℕ
  a : Option Str
  aaaa : Option Str
deriving DecidableEq

def RRset.resolved (rr : RRset) : List Resolved :=
  if rr.rrsetClass = "IN" then
    if rr.type = "A" then rr.data.filterMap fun d => (recordOf (getARecord d.2)).map fun record => ⟨d.1,
      some record,none⟩
    else if rr.type = "AAAA" then
      rr.data.filterMap fun d => (recordOf (getAaaaRecord d.2)).map fun record => ⟨d.1,none,some record⟩
    else []
  else []

def RRset.cnames (rr : RRset) : List Str :=
  if rr.rrsetClass = "IN" ∧ rr.type = "CNAME" then rr.data.filterMap fun d => recordOf (getCnameRecord d.2) else []
def learn (allow : List Str) (cname : Str) : List Str :=
  if cname ++ ['.'] ∈ allow then allow else allow ++ [cname ++ ['.']]
def Lists.respond (l : Lists) (rep : List RRset) : Lists × List Resolved :=
  ({ l with allow := (rep.flatMap RRset.cnames).foldl learn l.allow },rep.flatMap RRset.resolved)

/-- `LOG_ONLY` and `DENIED_FALLBACK_IP`. -/
structure Env where
  logOnly : Bool
  deniedFallback : Option Str

/-- `classIn` for the class IN, and `asksA` for the types A and ANY. -/
structure Query where
  qname : Str
  classIn : Bool
  asksA : Bool

inductive Outcome where
  | waitModule
  | nxdomain
  | noerror (answer : List Str)

def Lists.outcome (U : Unicode) (env : Env) (l : Lists) (q : Query) : Outcome :=
  if q.classIn then
    if !l.isAllowed U q.qname && !env.logOnly then
      match env.deniedFallback with
      | none => .nxdomain
      | some ip => .noerror (if q.asksA then [q.qname ++ " 10 IN A " ++ ip] else [])
    else .waitModule
  else .waitModule

/-- A query is passed on if its name is allowed, in log only mode, and if it is of another class. -/
theorem outcome_eq_waitModule_iff (U : Unicode) (env : Env) (l : Lists) (q : Query) :
    l.outcome U env q = .waitModule ↔ l.isAllowed U q.qname = true ∨ env.logOnly = true ∨ q.classIn = false := by
  unfold Lists.outcome
  cases q.classIn with
  | false => simp
  | true =>
    cases l.isAllowed U q.qname <;> cases env.logOnly <;> cases env.deniedFallback <;> simp

inductive Event where
  | query (q : Query)
  | response (qname : Str) (rep : List RRset)

def operate (l : Lists) : Event → Lists
  | .query _ => l
  | .response _ rep => (l.respond rep).1

def run (l : Lists) (events : List Event) : Lists := events.foldl operate l

def Event.learned : Event → List Str
  | .query _ => []
  | .response _ rep => (rep.flatMap RRset.cnames).map (· ++ ['.'])

theorem mem_foldl_learn (cnames allow : List Str) (name : Str) :
    name ∈ cnames.foldl learn allow ↔ name ∈ allow ∨ name ∈ cnames.map (· ++ ['.']) := by
  induction cnames generalizing allow with
  | nil => simp
  | cons cname cnames ih =>
    rw [foldl_cons,ih,map_cons,mem_cons]
    unfold learn
    split
    · rename_i hk
      constructor
      · exact fun h => h.imp_right .inr
      · rintro (h | rfl | h)
        · exact .inl h
        · exact .inl hk
        · exact .inr h
    · rw [mem_append,mem_singleton,or_assoc]

theorem operate_eq (l : Lists) (e : Event) :
    (∀ name, name ∈ (operate l e).allow ↔ name ∈ l.allow ∨ name ∈ e.learned) ∧
      (operate l e).deny = l.deny ∧ (operate l e).patterns = l.patterns := by
  cases e with
  | query q => exact ⟨fun name => by simp [operate,Event.learned],rfl,rfl⟩
  | response qname rep => exact ⟨mem_foldl_learn _ l.allow,rfl,rfl⟩

theorem run_eq (l : Lists) (events : List Event) :
    (∀ name, name ∈ (run l events).allow ↔ name ∈ l.allow ∨ ∃ e ∈ events, name ∈ e.learned) ∧
      (run l events).deny = l.deny ∧ (run l events).patterns = l.patterns := by
  induction events generalizing l with
  | nil => exact ⟨fun name => by simp [run],rfl,rfl⟩
  | cons e events ih =>
    obtain ⟨hallow,hd,hp⟩ := operate_eq l e
    obtain ⟨hrest,hd',hp'⟩ := ih (operate l e)
    refine ⟨fun name => ?_,hd'.trans hd,hp'.trans hp⟩
    rw [run,foldl_cons,← run,hrest,hallow,or_assoc]
    simp only [mem_cons,exists_eq_or_imp]

/-- The name is denied, or it is not allowed and the first wildcard rule that matches denies it. -/
def Lists.Denies (U : Unicode) (l : Lists) (qname : Str) : Prop :=
  qname ∈ l.deny ∨ (∃ rule, l.firstPattern U qname = some rule ∧ rule.allow = false) ∧ qname ∉ l.allow

theorem isAllowed_of_denies {U : Unicode} {l l' : Lists} {qname : Str} (hd : l.Denies U qname) (hde : l'.deny = l.deny)
    (hp : l'.patterns = l.patterns) : l'.isAllowed U qname = false ↔ qname ∉ l'.allow := by
  unfold Lists.isAllowed
  by_cases hallow : qname ∈ l'.allow
  · simp [hallow]
  · rw [if_neg hallow]
    simp only [hallow,not_false_eq_true,iff_true]
    split
    · rfl
    · rename_i hnot
      rcases hd with hmem | ⟨⟨rule,hr,hf⟩,_⟩
      · exact absurd (hde ▸ hmem) hnot
      · have hs : l'.firstPattern U qname = some rule := by rw [Lists.firstPattern,hp,← Lists.firstPattern,hr]
        simp only [hs,hf]

/-- Along a run the configured denials hold exactly when no name is both allowed and denied, and
no answer has a denied name as a target. -/
theorem denied_along_run_iff (U : Unicode) (entries : List ResolvEntry) (events : List Event) :
    (∀ past, past <+: events → ∀ qname, (init entries).Denies U qname →
      (run (init entries) past).isAllowed U qname = false) ↔
      (∀ qname ∈ (init entries).deny, qname ∉ (init entries).allow) ∧
        ∀ e ∈ events, ∀ qname ∈ e.learned, ¬ (init entries).Denies U qname := by
  have ha : ∀ past qname, (init entries).Denies U qname → ((run (init entries) past).isAllowed U qname = false ↔
      ¬ (qname ∈ (init entries).allow ∨ ∃ e ∈ past, qname ∈ e.learned)) := by
    intro past qname hd
    obtain ⟨hallow,hde,hp⟩ := run_eq (init entries) past
    rw [isAllowed_of_denies hd hde hp,hallow]
  constructor
  · intro h
    refine ⟨fun qname hmem hallow => ?_,fun e he qname hl hd => ?_⟩
    · exact (ha [] qname (.inl hmem)).1 (h [] nil_prefix qname (.inl hmem)) (.inl hallow)
    · exact (ha events qname hd).1 (h events prefix_rfl qname hd) (.inr ⟨e,he,hl⟩)
  · rintro ⟨hli,hl⟩ past hpa qname hd
    rw [ha past qname hd]
    rintro (hallow | ⟨e,he,hmem⟩)
    · rcases hd with hde | ⟨_,hnot⟩
      · exact hli qname hde hallow
      · exact hnot hallow
    · exact hl e (hpa.subset he) qname hmem hd

def evilTarget : List UInt8 := [0,10,4,101,118,105,108,3,111,114,103,0]

/-- A remote server makes a denied name an allowed one. -/
theorem denied_name_is_learned :
    let l := init [⟨.allow,some "a.com.",none,none⟩,⟨.deny,some "evil.org.",none,none⟩]
    let answer := Event.response "a.com." [⟨"IN","CNAME",[(300,evilTarget)]⟩]
    "evil.org.".toList ∈ l.deny ∧ l.isAllowed .ascii "a.com.".toList = true ∧
      l.isAllowed .ascii "evil.org.".toList = false ∧
      (run l [.query ⟨"a.com.",true,true⟩,answer]).isAllowed .ascii "evil.org." = true := by
  decide +kernel

end Padsi.Dns.Unbound
