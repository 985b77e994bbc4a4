import Mathlib.Data.List.Basic
import Padsi.Lib.Text

/-! # Commands in an admin namespace

When `padsi-do` is not root it executes itself through sudo, with arguments that it
makes from those that it has read.
-/
namespace Padsi.Do
open Text List

structure DoArgs where
  help : Bool
  list : Bool
  adminns : Option Str
  delay : ℕ
  command : List Str

inductive Opt where
  | adminns
  | delay
  | list
  | help

def option (a : Str) : Option Opt :=
  if a = "-a" ∨ a = "--adminns" then some .adminns
  else if a = "-d" ∨ a = "--delay" then some .delay
  else if a = "-l" ∨ a = "--list" then some .list
  else if a = "-h" ∨ a = "--help" then some .help
  else none

def readDelay (s : Str) : Option ℕ :=
  match parseUnsigned (2 ^ 32 - 1) s with
  | .ok d => if d > (2 ^ 32 - 1) / 10 then none else some (d * 10)
  | .error _ => none

def parseArgs (args : DoArgs) : List Str → Option DoArgs
  | [] => some args
  | a :: rest =>
    match option a, rest with
    | some .adminns, [] => none
    | some .adminns, s :: rest => parseArgs { args with adminns := some s } rest
    | some .delay, [] => none
    | some .delay, s :: rest =>
      match readDelay s with
      | none => none
      | some delay => parseArgs { args with delay } rest
    | some .list, rest => parseArgs { args with list := true } rest
    | some .help, rest => parseArgs { args with help := true } rest
    | none, rest => some { args with command := a :: rest }

def parse : List Str → Option DoArgs
  | [] => none
  | _ :: args => parseArgs ⟨false,false,none,0,[]⟩ args

def sudoArgs (args : DoArgs) : List Str :=
  "/usr/bin/padsi-do".toList :: match args.adminns with
    | some adminns => "-a".toList :: adminns :: args.command
    | none => args.command

theorem option_of_parseArgs {args args' : DoArgs} {l : List Str} (h : parseArgs args l = some args')
    (hc : ∀ a ∈ args.command.head?, option a = none) : ∀ a ∈ args'.command.head?, option a = none := by
  fun_induction parseArgs args l with
  | case1 => exact Option.some.inj h ▸ hc
  | case3 _ _ _ _ _ ih | case6 _ _ _ _ _ _ _ ih | case7 _ _ _ _ ih | case8 _ _ _ _ ih => exact ih h hc
  | case2 | case4 | case5 => cases h
  | case9 _ _ _ ha =>
    cases h
    intro b hb
    cases hb
    exact ha

theorem parse_sudoArgs {argv : List Str} {args : DoArgs} (h : parse argv = some args) (hc : args.command ≠ []) :
    parse (sudoArgs args) = some ⟨false,false,args.adminns,0,args.command⟩ := by
  obtain ⟨a,rest,ha⟩ := exists_cons_of_ne_nil hc
  have ho : option a = none := by
    cases argv with
    | nil => cases h
    | cons _ l => exact option_of_parseArgs h (by simp) a (by rw [ha]; rfl)
  have hp : ∀ args : DoArgs, parseArgs args (a :: rest) = some { args with command := a :: rest } := by
    intro args
    simp [parseArgs,ho]
  rw [sudoArgs,ha]
  cases args.adminns with
  | none => exact hp _
  | some adminns => exact hp _

/-- The delay is not among the arguments: it is that of the new command line if it is zero. -/
theorem kept_under_sudo_iff {argv : List Str} {args : DoArgs} (h : parse argv = some args) (hc : args.command ≠ []) :
    (∃ args', parse (sudoArgs args) = some args' ∧ args'.adminns = args.adminns ∧ args'.delay = args.delay ∧
      args'.command = args.command) ↔
      args.delay = 0 := by
  rw [parse_sudoArgs h hc]
  constructor
  · rintro ⟨args',hp,-,hd,-⟩
    cases hp
    exact hd.symm
  · exact fun hd => ⟨_,rfl,rfl,hd.symm,rfl⟩

/-- The delay is zero, and the command has options like those of the program. -/
theorem ping_kept_under_sudo : ∃ args', parse (sudoArgs ⟨false,false,some "dns",0,["ping","-d","5"]⟩) = some args' ∧
    args'.adminns = some "dns".toList ∧ args'.delay = 0 ∧ args'.command = ["ping".toList,"-d".toList,"5".toList] :=
  (@kept_under_sudo_iff ["padsi-do","--adminns","dns","-d","0","ping","-d","5"] _ rfl (by simp)).2 rfl

/-- A delay of five seconds is lost. -/
theorem delay_lost_under_sudo : (parse ["padsi-do","-d","5","id"]).map DoArgs.delay = some 50 ∧
    ((parse ["padsi-do","-d","5","id"]).bind fun args => parse (sudoArgs args)).map DoArgs.delay = some 0 := ⟨rfl,rfl⟩

end Padsi.Do
