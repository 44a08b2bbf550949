import NetProg.Lib.CString
import NetProg.Lib.Tokens
import NetProg.Cluster.Parse

/-!
# Commands of the group chat

`parseCommand` copies the line that `getline` has read into an array, without its newline,
and cuts it with `strtok`. Names, numbers and addresses end at a space, and the texts of a
message or a poll at a double quote. One saved cursor goes through the line, whatever the
delimiter is.

A fault is an access outside an array or through a NULL token. A command that was parsed
holds strings that fit into the arrays of `struct command`.
-/

namespace NetProg.GroupChat

open Lib
open Cluster (nul atoi)

/-! ## Commands -/

/-- `GROUP_NAME_LEN`. -/
def groupNameLen : ℕ :=
  20

/-- `IP_LEN`. -/
def ipLen : ℕ :=
  20

/-- `MESSAGE_LEN`. -/
def messageLen : ℕ :=
  100

/-- `NUM_OPTIONS`. -/
def numOptions : ℕ :=
  5

/-- `COMMAND_LEN`. -/
def commandLen : ℕ :=
  1024

/-- `FILE_NAME_LEN`. -/
def fileNameLen : ℕ :=
  20

/-- `enum cmds`. -/
inductive Cmds where
  | createGroup
  | joinGroup
  | leaveGroup
  | findGroup
  | sendMessage
  | initPoll
  | listGroups
  | listFiles
  | requestFile
  | helpCmd
  | exitCmd
deriving DecidableEq, Repr

/-- `CREATE_GROUP_STR` and the other names. -/
def Cmds.str : Cmds → List Char
  | .createGroup => "create-group".toList
  | .joinGroup => "join-group".toList
  | .leaveGroup => "leave-group".toList
  | .findGroup => "find-group".toList
  | .sendMessage => "send-message".toList
  | .initPoll => "init-poll".toList
  | .listGroups => "list-groups".toList
  | .listFiles => "list-files".toList
  | .requestFile => "request-file".toList
  | .helpCmd => "help".toList
  | .exitCmd => "exit".toList

/-- The entries of `options` that are filled in. -/
structure Options where
  strs : List (CString Char messageLen)
  length_le : strs.length ≤ numOptions

/-- `struct init_poll_cmd`. -/
structure InitPollCmd where
  grpName : CString Char groupNameLen
  que : CString Char messageLen
  options : Options
  optionCnt : ℤ

/-- `struct command`, as `command_obj` holds it. -/
inductive CommandObj where
  | createGroup (grpName : CString Char groupNameLen) (ip : CString Char ipLen) (port : ℤ)
  | joinGroup (grpName : CString Char groupNameLen)
  | leaveGroup (grpName : CString Char groupNameLen)
  | findGroup (query : CString Char groupNameLen)
  | sendMessage (grpName : CString Char groupNameLen) (msg : CString Char messageLen)
  | initPoll (poll : InitPollCmd)
  | listGroups
  | listFiles
  | requestFile (fileName : CString Char fileNameLen)
  | helpCmd
  | exitCmd

/-! ## The forms -/

/-- What goes wrong : a read outside the line, NULL for `strcmp`, or a write outside an
array. -/
inductive Fault where
  | readOutside
  | nullToken
  | overflow
deriving DecidableEq, Repr

/-- A command, NULL, or a fault. -/
abbrev Parse :=
  Except Fault (Option CommandObj)

/-- `strcpy` into an array of `cap` bytes. -/
def copy {cap : ℕ} (s : List Char) : Except Fault (CString Char cap) :=
  match CString.strcpy s with
  | some dst => .ok dst
  | none => .error .overflow

/-- A command with a name alone. -/
def parseName (mk : CString Char groupNameLen → CommandObj) (s : List Char) : Parse :=
  match (strtok ' ' s).1 with
  | none => .ok none
  | some name => (copy name).map fun name => some (mk name)

def parseCreateGroup (s : List Char) : Parse :=
  let (grpName, s) := strtok ' ' s
  let (ip, s) := strtok ' ' s
  let (port, _) := strtok ' ' s
  match grpName, ip, port with
  | some grpName, some ip, some port => do
    let grpName ← copy grpName
    let ip ← copy ip
    return some (.createGroup grpName ip (atoi port))
  | _, _, _ => .ok none

def parseJoinGroup : List Char → Parse :=
  parseName .joinGroup

def parseLeaveGroup : List Char → Parse :=
  parseName .leaveGroup

def parseFindGroup : List Char → Parse :=
  parseName .findGroup

def parseSendMessage (s : List Char) : Parse :=
  let (grpName, s) := strtok ' ' s
  let (msg, _) := strtok '"' s
  match grpName, msg with
  | some grpName, some msg => do
    let grpName ← copy grpName
    let msg ← copy msg
    return some (.sendMessage grpName msg)
  | _, _ => .ok none

/-- `strcpy` into the next entry of `options`. -/
def Options.push (options : Options) (opt : List Char) : Except Fault Options :=
  if h : options.strs.length < numOptions then
    (copy opt).map fun str => ⟨options.strs ++ [str], by rw [List.length_append]; exact h⟩
  else .error .overflow

/-- The loop over the options, with `n` turns to go. It takes an option and what is between
its quote and the next one. -/
def readOptions : ℕ → Options → List Char → Except Fault (Option Options)
  | 0, options, _ => .ok (some options)
  | n + 1, options, s =>
    let (opt, s) := strtok '"' s
    let (_, s) := strtok '"' s
    match opt with
    | none => .ok none
    | some opt => do
      let options ← options.push opt
      readOptions n options s

def parseInitPoll (s : List Char) : Parse :=
  let (grpName, s) := strtok ' ' s
  let (que, s) := strtok '"' s
  let (optionCnt, s) := strtok ' ' s
  match grpName, que, optionCnt with
  | some grpName, some que, some optionCnt => do
    let cnt := atoi optionCnt
    let grpName ← copy grpName
    let que ← copy que
    let options ← readOptions cnt.toNat ⟨[], Nat.zero_le _⟩ s
    return options.map fun options => .initPoll ⟨grpName, que, options, cnt⟩
  | _, _, _ => .ok none

def parseRequestFile (s : List Char) : Parse :=
  match (strtok ' ' s).1 with
  | none => .ok none
  | some fileName =>
    if fileName.length > fileNameLen then .ok none
    else (copy fileName).map fun fileName => some (.requestFile fileName)

/-- What follows the name of a command. -/
def parseArgs (s : List Char) : Cmds → Parse
  | .createGroup => parseCreateGroup s
  | .joinGroup => parseJoinGroup s
  | .leaveGroup => parseLeaveGroup s
  | .findGroup => parseFindGroup s
  | .sendMessage => parseSendMessage s
  | .initPoll => parseInitPoll s
  | .listGroups => .ok (some .listGroups)
  | .helpCmd => .ok (some .helpCmd)
  | .exitCmd => .ok (some .exitCmd)
  | .listFiles => .ok (some .listFiles)
  | .requestFile => parseRequestFile s

/-- The comparisons with the names, in their order. -/
def findCmd (cmdName : List Char) : Option Cmds :=
  [Cmds.createGroup, .joinGroup, .leaveGroup, .findGroup, .sendMessage, .initPoll, .listGroups,
    .helpCmd, .exitCmd, .listFiles, .requestFile].find? fun c => cmdName == c.str

/-- What is done with the copy of the line. -/
def parseText (cmd : List Char) : Parse :=
  match strtok ' ' cmd with
  | (none, _) => .error .nullToken
  | (some cmdName, s) =>
    match findCmd cmdName with
    | some c => parseArgs s c
    | none => .ok none

/-! ## The line -/

/-- The string in the buffer of `getline`. -/
def rawCmd (line : List Char) : List Char :=
  line.takeWhile fun c => c != nul

/-- `cmd_len`, an `int`, before the newline is taken off. -/
def cmdLen (raw : List Char) : ℤ :=
  (BitVec.ofNat 32 raw.length).toInt

/-- `cmd_len` without the newline, from a positive length. -/
def trimmedLen (raw : List Char) (len : ℕ) : ℕ :=
  if raw.getD (len - 1) nul = '\n' then len - 1 else len

/-- What `strncpy` copies. -/
def cmdText (raw : List Char) (len : ℕ) : List Char :=
  if raw.headD nul = '\n' then (raw.drop 1).take (len - 1) else raw.take len

/-- `parseCommand`. `calloc` is whether `calloc` succeeds. -/
def parseCommand (calloc : Bool) (line : List Char) : Parse :=
  if calloc then
    let raw := rawCmd line
    if cmdLen raw ≤ 0 then .error .readOutside
    else
      let len := trimmedLen raw (cmdLen raw).toNat
      if len = 0 then .ok none
      else do
        let cmd : CString Char commandLen ← copy (cmdText raw len)
        parseText cmd.chars
  else .ok none

end NetProg.GroupChat
