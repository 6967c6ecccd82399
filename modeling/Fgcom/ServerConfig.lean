import Fgcom.Lib.Record
import Fgcom.Phonebook.AptBlocks

/-! # The accounts of the server

`fg-config-builder.pl` reads user names and passwords from the auth file and writes a section for
each of them into the configuration of the server.

* **`readAuthFile`** — the reading loop with its three patterns; **`createConfig`** — the text
  between the pre and the post file.
* **`AuthFile`** — an auth file as it is meant: a line for each account, blank lines, comments.
* **`configured_iff`** — the accounts reach the configuration exactly if no user name and no
  password has a `#`: the test for a comment is not tied to the start of the line. -/

namespace Fgcom.ServerConfig

open DecimalText Pattern Phonebook Record

/-! ## Reading the auth file -/

/-- `['"]`. -/
def isQuote (c : Char) : Bool := c = '\'' || c = '"'

/-- `^\s*$`. -/
def blankRx : Rx := .seq (.star isSpace) .atEnd

/-- `\s*\#`, with no anchor in front. -/
def commentRx : Rx := .seq (.star isSpace) (.text ['#'])

/-- `$ACCESS{`. -/
def accessPrefix : List Char := ['$', 'A', 'C', 'C', 'E', 'S', 'S', '\x7b']

/-- `^\$ACCESS\{['"]{1}(.+)["']{1}\}\s*=\s*['"]{1}(.+)["']{1}`. -/
def accessRx : Rx :=
  Rx.concat [.text accessPrefix, .one isQuote, .group (.plus anyChar), .one isQuote,
    .text ['\x7d'], .star isSpace, .text ['='], .star isSpace, .one isQuote,
    .group (.plus anyChar), .one isQuote]

/-- The lines of a file, chomped. -/
def fileLines (text : List Char) : List (List Char) :=
  let lines := text.splitOn '\n'
  if lines.getLast? = some [] then lines.dropLast else lines

/-- `%ACCESS`, and what has been printed. -/
structure AuthState where
  access : Hash (List Char)
  stdout : List Char

/-- The body of the loop of `read_auth_file`. -/
def readAuthLine (verbosity : ℤ) (s : AuthState) (line : List Char) : AuthState :=
  if (blankRx.first line).isSome then s
  else if commentRx.search line then s
  else
    match accessRx.first line with
    | some [name, val] =>
        { access := s.access.insert name val
          stdout := if 9 ≤ verbosity then s.stdout ++ name ++ [' '] ++ val ++ ['\n'] else s.stdout }
    | _ =>
        { s with
          stdout := s.stdout ++ "WARNING: Unknown line in 'auth' file [".toList ++ line ++
            "]!\n".toList }

/-- `read_auth_file`, on the content of the file. -/
def readAuthFile (verbosity : ℤ) (text : List Char) : AuthState :=
  (fileLines text).foldl (readAuthLine verbosity) ⟨∅, []⟩

/-! ## Writing the configuration -/

/-- What `gmtime` gives. -/
structure Tm where
  year : ℕ
  mon : ℕ
  mday : ℕ
  hour : ℕ
  min : ℕ
  sec : ℕ

/-- `lu_get_YYYYMMDD_hhmmss_UTC`. -/
def utcText (tm : Tm) : List Char :=
  padded 4 (tm.year + 1900) ++ ['/'] ++ padded 2 (tm.mon + 1) ++ ['/'] ++ padded 2 tm.mday ++
    [' '] ++ padded 2 tm.hour ++ [':'] ++ padded 2 tm.min ++ [':'] ++ padded 2 tm.sec

/-- The section of one user. -/
def sectionText (u secret : List Char) : List Char :=
  "[".toList ++ u ++ "]\n".toList ++ "type=friend\n".toList ++ "username=".toList ++ u ++
    "\n".toList ++ "secret=".toList ++ secret ++ "\n".toList ++ "context=default\n".toList ++
    "host=dynamic\n".toList ++ "nat=yes\n".toList ++ "notransfer=yes\n".toList ++
    "regcontext=default\n".toList ++ "\n".toList

/-- `$pgmname`. -/
def pgmname : List Char := "fg-config-builder.pl".toList

/-- The text `_create_config` writes between the pre and the post file, for the keys of `%ACCESS` in
the order in which `keys` returns them. -/
def createConfig (tm : Tm) (keys : List (List Char)) (access : Hash (List Char)) : List Char :=
  ['\n'] ++ "; generated by ".toList ++ pgmname ++ ", on ".toList ++ utcText tm ++
    " UTC, adding ".toList ++ Nat.toDigits 10 keys.length ++ " users.".toList ++ ['\n', '\n'] ++
    keys.flatMap fun u => sectionText u ((access.lookup u).getD [])

/-! ## Auth files -/

/-- A user name with its password: not empty, without quotes and line ends. -/
structure Account where
  user : List Char
  password : List Char
  user_ne : user ≠ []
  password_ne : password ≠ []
  user_plain : ∀ c ∈ user, isQuote c = false ∧ c ≠ '\n'
  password_plain : ∀ c ∈ password, isQuote c = false ∧ c ≠ '\n'

/-- A line of an auth file. -/
inductive AuthLine
  | account (a : Account)
  | blank (s : {s : List Char // ∀ c ∈ s, isSpace c = true ∧ c ≠ '\n'})
  | comment (s : {s : List Char // '\n' ∉ s})

/-- The text of a line. -/
def AuthLine.text : AuthLine → List Char
  | .account a =>
      accessPrefix ++ ['\''] ++ a.user ++ ['\'', '\x7d', ' ', '=', ' ', '"'] ++ a.password ++
        ['"', ';']
  | .blank s => s.val
  | .comment s => '#' :: s.val

/-- The account of a line. -/
def AuthLine.account? : AuthLine → Option Account
  | .account a => some a
  | .blank _ | .comment _ => none

/-- An auth file: one line for each user, among blank lines and comments; the last line may be
without a line end. -/
structure AuthFile where
  lines : List AuthLine
  newlineAtEnd : Bool
  users_nodup : ((lines.filterMap AuthLine.account?).map Account.user).Nodup

/-- The accounts of a file. -/
def AuthFile.accounts (file : AuthFile) : List Account := file.lines.filterMap AuthLine.account?

/-- The text of a file. -/
def AuthFile.text (file : AuthFile) : List Char :=
  ['\n'].intercalate (file.lines.map AuthLine.text ++ if file.newlineAtEnd then [[]] else [])

/-! ## Sections of a configuration -/

/-- A section: the name between the brackets, and the settings up to the next section. -/
structure Section where
  name : List Char
  settings : List (List Char × List Char)
  deriving DecidableEq

/-- The name of a section, on a line of its own between brackets. -/
def sectionName : List Char → Option (List Char)
  | '[' :: t => if t.getLast? = some ']' then some t.dropLast else none
  | _ => none

/-- A setting: a key and a value around the first equals sign. -/
def setting (line : List Char) : Option (List Char × List Char) :=
  if '=' ∈ line then some (line.takeWhile (· ≠ '='), (line.dropWhile (· ≠ '=')).tail) else none

/-- The sections of a list of lines. -/
def readSections : List (List Char) → List Section
  | [] => []
  | line :: lines =>
      match sectionName line with
      | none => readSections lines
      | some name =>
          { name
            settings := (lines.takeWhile fun l => (sectionName l).isNone).filterMap setting } ::
            readSections lines

/-- The sections of a text. -/
def sectionsOf (text : List Char) : List Section := readSections (text.splitOn '\n')

/-- The values a section sets a key to. -/
def Section.values (s : Section) (key : List Char) : List (List Char) :=
  (s.settings.filter fun x => x.1 = key).map Prod.snd

/-- **The accounts reach the configuration**: `%ACCESS` is the map of the file, and whatever the
order of its keys, the sections written are those of the accounts, one each, with one user name and
one secret. -/
def Configured (verbosity : ℤ) (tm : Tm) (file : AuthFile) : Prop :=
  let access := (readAuthFile verbosity file.text).access
  (∀ user password, access.lookup user = some password ↔
    ∃ a ∈ file.accounts, a.user = user ∧ a.password = password) ∧
  ∀ keys : List (List Char), keys.Perm access.keys →
    ((sectionsOf (createConfig tm keys access)).map fun s =>
        (s.name, s.values "username".toList, s.values "secret".toList)).Perm
      (file.accounts.map fun a => (a.user, [a.user], [a.password]))

/-- No user name and no password has a `#`. -/
def NoHash (file : AuthFile) : Prop :=
  ∀ a ∈ file.accounts, '#' ∉ a.user ∧ '#' ∉ a.password

/-! ## The three patterns -/

/-- A line of white space is blank. -/
theorem blankRx_first_of_blank {s : List Char} (hs : ∀ c ∈ s, isSpace c = true) :
    (blankRx.first s).isSome = true := by
  have hmem : ([], []) ∈ blankRx.run s := by
    refine List.mem_flatMap.mpr ⟨([], []), List.mem_map.mpr ⟨[], ?_, rfl⟩, by simp [Rx.run]⟩
    have hrest := Rx.mem_starRests_append hs []
    rwa [List.append_nil] at hrest
  rw [Rx.first, Option.isSome_map, List.isSome_head?]
  exact List.ne_nil_of_mem hmem

/-- A line that starts with a dollar sign is not blank. -/
theorem blankRx_first_dollar (s : List Char) : blankRx.first ('$' :: s) = none := by
  simp [Rx.first, blankRx, Rx.run, Rx.starRests, isSpace]

/-- The test for a comment finds a `#` anywhere. -/
theorem search_commentRx_iff {s : List Char} : commentRx.search s = true ↔ '#' ∈ s := by
  rw [Rx.search_iff rfl]
  constructor
  · rintro ⟨front, u, rest, caps, rfl, u₁, u₂, -, -, -, ⟨rfl, -⟩, rfl, -⟩
    simp
  · intro h
    obtain ⟨front, rest, rfl⟩ := List.append_of_mem h
    exact ⟨front, ['#'], rest, [], by simp, [], ['#'], [], [], ⟨by simp, rfl⟩, ⟨rfl, rfl⟩, rfl, rfl⟩

/-- What the pattern for an account reads. -/
def accessText (name blanks₁ blanks₂ val : List Char) (q₁ q₂ q₃ q₄ : Char) : List Char :=
  accessPrefix ++ q₁ :: (name ++ q₂ :: '\x7d' ::
    (blanks₁ ++ '=' :: (blanks₂ ++ q₃ :: (val ++ [q₄]))))

/-- The readings of the pattern for an account. -/
theorem accessRx_reads_iff {u : List Char} {caps : List (List Char)} :
    accessRx.Reads u caps ↔
      ∃ name blanks₁ blanks₂ val q₁ q₂ q₃ q₄,
        u = accessText name blanks₁ blanks₂ val q₁ q₂ q₃ q₄ ∧ caps = [name, val] ∧
          (name ≠ [] ∧ ∀ c ∈ name, anyChar c = true) ∧ (val ≠ [] ∧ ∀ c ∈ val, anyChar c = true) ∧
          (∀ c ∈ blanks₁, isSpace c = true) ∧ (∀ c ∈ blanks₂, isSpace c = true) ∧
          isQuote q₁ = true ∧ isQuote q₂ = true ∧ isQuote q₃ = true ∧ isQuote q₄ = true := by
  unfold accessRx
  constructor
  · intro h
    -- one stage for each part of the pattern
    obtain ⟨_, _, _, _, ⟨rfl, rfl⟩, h₁, rfl, rfl⟩ := Rx.reads_concat_cons.mp h
    obtain ⟨_, _, _, _, ⟨⟨q₁, hq₁, rfl⟩, rfl⟩, h₂, rfl, rfl⟩ := Rx.reads_concat_cons.mp h₁
    obtain ⟨name, _, _, _, ⟨_, hname, rfl⟩, h₃, rfl, rfl⟩ := Rx.reads_concat_cons.mp h₂
    obtain ⟨_, _, _, _, ⟨⟨q₂, hq₂, rfl⟩, rfl⟩, h₄, rfl, rfl⟩ := Rx.reads_concat_cons.mp h₃
    obtain ⟨_, _, _, _, ⟨rfl, rfl⟩, h₅, rfl, rfl⟩ := Rx.reads_concat_cons.mp h₄
    obtain ⟨blanks₁, _, _, _, ⟨hblanks₁, rfl⟩, h₆, rfl, rfl⟩ := Rx.reads_concat_cons.mp h₅
    obtain ⟨_, _, _, _, ⟨rfl, rfl⟩, h₇, rfl, rfl⟩ := Rx.reads_concat_cons.mp h₆
    obtain ⟨blanks₂, _, _, _, ⟨hblanks₂, rfl⟩, h₈, rfl, rfl⟩ := Rx.reads_concat_cons.mp h₇
    obtain ⟨_, _, _, _, ⟨⟨q₃, hq₃, rfl⟩, rfl⟩, h₉, rfl, rfl⟩ := Rx.reads_concat_cons.mp h₈
    obtain ⟨val, _, _, _, ⟨_, hval, rfl⟩, h₁₀, rfl, rfl⟩ := Rx.reads_concat_cons.mp h₉
    obtain ⟨_, _, _, _, ⟨⟨q₄, hq₄, rfl⟩, rfl⟩, h₁₁, rfl, rfl⟩ := Rx.reads_concat_cons.mp h₁₀
    obtain ⟨rfl, rfl⟩ := Rx.reads_concat_nil.mp h₁₁
    obtain ⟨hnameNe, hnameAny, rfl⟩ := Rx.reads_plus_iff.mp hname
    obtain ⟨hvalNe, hvalAny, rfl⟩ := Rx.reads_plus_iff.mp hval
    exact ⟨name, blanks₁, blanks₂, val, q₁, q₂, q₃, q₄, rfl, rfl,
      ⟨hnameNe, hnameAny⟩, ⟨hvalNe, hvalAny⟩, hblanks₁, hblanks₂, hq₁, hq₂, hq₃, hq₄⟩
  · rintro ⟨name, blanks₁, blanks₂, val, q₁, q₂, q₃, q₄, rfl, rfl, hname, hval, hblanks₁, hblanks₂,
      hq₁, hq₂, hq₃, hq₄⟩
    have hnameReads := Rx.reads_plus_iff.mpr ⟨hname.1, hname.2, rfl⟩
    have hvalReads := Rx.reads_plus_iff.mpr ⟨hval.1, hval.2, rfl⟩
    refine Rx.reads_concat_cons.mpr ⟨_, _, [], _, ⟨rfl, rfl⟩, ?_, rfl, rfl⟩
    refine Rx.reads_concat_cons.mpr ⟨[q₁], _, [], _, ⟨⟨q₁, hq₁, rfl⟩, rfl⟩, ?_, rfl, rfl⟩
    refine Rx.reads_concat_cons.mpr ⟨name, _, [name], [val], ⟨[], hnameReads, rfl⟩, ?_, rfl, rfl⟩
    refine Rx.reads_concat_cons.mpr ⟨[q₂], _, [], _, ⟨⟨q₂, hq₂, rfl⟩, rfl⟩, ?_, rfl, rfl⟩
    refine Rx.reads_concat_cons.mpr ⟨['\x7d'], _, [], _, ⟨rfl, rfl⟩, ?_, rfl, rfl⟩
    refine Rx.reads_concat_cons.mpr ⟨blanks₁, _, [], _, ⟨hblanks₁, rfl⟩, ?_, rfl, rfl⟩
    refine Rx.reads_concat_cons.mpr ⟨['='], _, [], _, ⟨rfl, rfl⟩, ?_, rfl, rfl⟩
    refine Rx.reads_concat_cons.mpr ⟨blanks₂, _, [], _, ⟨hblanks₂, rfl⟩, ?_, rfl, rfl⟩
    refine Rx.reads_concat_cons.mpr ⟨[q₃], _, [], _, ⟨⟨q₃, hq₃, rfl⟩, rfl⟩, ?_, rfl, rfl⟩
    refine Rx.reads_concat_cons.mpr ⟨val, _, [val], [], ⟨[], hvalReads, rfl⟩, ?_, rfl, rfl⟩
    exact Rx.reads_concat_cons.mpr ⟨[q₄], [], [], [], ⟨⟨q₄, hq₄, rfl⟩, rfl⟩,
      Rx.reads_concat_nil.mpr ⟨rfl, rfl⟩, rfl, rfl⟩

/-- The line of an account is read as it is meant, up to the semicolon. -/
theorem accountText_eq (a : Account) :
    (AuthLine.account a).text
      = accessText a.user [' '] [' '] a.password '\'' '\'' '"' '"' ++ [';'] := by
  simp [AuthLine.text, accessText]

/-- **The line of an account is read in one way only**: it has four quotes, which is what the
pattern needs. -/
theorem eq_of_accessText_eq (a : Account) {name blanks₁ blanks₂ val rest : List Char}
    {q₁ q₂ q₃ q₄ : Char} (hq₂ : isQuote q₂ = true) (hq₃ : isQuote q₃ = true)
    (hq₄ : isQuote q₄ = true)
    (h : (AuthLine.account a).text = accessText name blanks₁ blanks₂ val q₁ q₂ q₃ q₄ ++ rest) :
    name = a.user ∧ val = a.password := by
  have huser : ∀ c ∈ a.user, isQuote c = false := fun c hc => (a.user_plain c hc).1
  have hpassword : ∀ c ∈ a.password, isQuote c = false := fun c hc => (a.password_plain c hc).1
  have hbody : a.user ++ '\'' :: (['\x7d', ' ', '=', ' '] ++ '"' :: (a.password ++ '"' :: [';']))
      = name ++ q₂ :: (('\x7d' :: (blanks₁ ++ '=' :: blanks₂)) ++ q₃ :: (val ++ q₄ :: rest)) := by
    rw [accountText_eq] at h
    simp only [accessText, List.append_assoc, List.cons_append] at h
    simpa using (List.cons.inj (List.append_cancel_left h)).2
  -- four quotes on the left: the texts between those on the right have none
  have hcount : name.countP isQuote = 0 ∧ blanks₁.countP isQuote = 0 ∧ blanks₂.countP isQuote = 0 ∧
      val.countP isQuote = 0 := by
    have hquotes := congrArg (List.countP isQuote) hbody
    have huser' := List.countP_eq_zero.mpr fun c hc => Bool.eq_false_iff.mp (huser c hc)
    have hpassword' := List.countP_eq_zero.mpr fun c hc => Bool.eq_false_iff.mp (hpassword c hc)
    have hapostrophe : isQuote '\'' = true := rfl
    have hquote : isQuote '"' = true := rfl
    have hbrace : isQuote '\x7d' = false := rfl
    have hspace : isQuote ' ' = false := rfl
    have hequals : isQuote '=' = false := rfl
    have hsemicolon : isQuote ';' = false := rfl
    simp [hq₂, hq₃, hq₄, huser', hpassword', hapostrophe, hquote, hbrace, hspace, hequals,
      hsemicolon] at hquotes
    omega
  have hfree : ∀ {u : List Char}, u.countP isQuote = 0 → ∀ c ∈ u, isQuote c = false :=
    fun hu c hc => Bool.eq_false_iff.mpr (List.countP_eq_zero.mp hu c hc)
  obtain ⟨hname, hrest⟩ := cut_inj huser (hfree hcount.1) rfl hq₂ hbody
  have hmiddle : ∀ c ∈ '\x7d' :: (blanks₁ ++ '=' :: blanks₂), isQuote c = false := by
    refine List.forall_mem_cons.mpr ⟨rfl, List.forall_mem_append.mpr ⟨hfree hcount.2.1, ?_⟩⟩
    exact List.forall_mem_cons.mpr ⟨rfl, hfree hcount.2.2.1⟩
  obtain ⟨-, hrest'⟩ := cut_inj (by simp [isQuote]) hmiddle rfl hq₃ hrest
  obtain ⟨hval, -⟩ := cut_inj hpassword (hfree hcount.2.2.2) rfl hq₄ hrest'
  exact ⟨hname.symm, hval.symm⟩

/-- **An account is read off its line.** -/
theorem accessRx_first (a : Account) :
    accessRx.first (AuthLine.account a).text = some [a.user, a.password] := by
  have hany : ∀ {u : List Char}, (∀ c ∈ u, isQuote c = false ∧ c ≠ '\n') →
      ∀ c ∈ u, anyChar c = true := fun hu c hc => decide_eq_true (hu c hc).2
  refine Rx.first_eq_of_reads rfl (accountText_eq a) (accessRx_reads_iff.mpr
    ⟨a.user, [' '], [' '], a.password, '\'', '\'', '"', '"', rfl, rfl,
      ⟨a.user_ne, hany a.user_plain⟩, ⟨a.password_ne, hany a.password_plain⟩, by simp [isSpace],
      by simp [isSpace], rfl, rfl, rfl, rfl⟩) ?_
  intro u rest caps hs hreads
  obtain ⟨name, blanks₁, blanks₂, val, q₁, q₂, q₃, q₄, rfl, rfl, -, -, -, -, -, hq₂, hq₃, hq₄⟩ :=
    accessRx_reads_iff.mp hreads
  obtain ⟨rfl, rfl⟩ := eq_of_accessText_eq a hq₂ hq₃ hq₄ hs
  rfl

/-! ## What is stored -/

/-- An account whose line has no `#`. -/
def Account.hashFree (a : Account) : Bool := '#' ∉ a.user ∧ '#' ∉ a.password

/-- A blank line changes nothing. -/
theorem readAuthLine_blank (verbosity : ℤ) (s : AuthState) {line : List Char}
    (h : ∀ c ∈ line, isSpace c = true) : readAuthLine verbosity s line = s :=
  if_pos (blankRx_first_of_blank h)

/-- The empty line changes nothing. -/
theorem readAuthLine_nil (verbosity : ℤ) (s : AuthState) : readAuthLine verbosity s [] = s :=
  readAuthLine_blank verbosity s (List.forall_mem_nil _)

/-- A line with a `#` changes nothing. -/
theorem readAuthLine_of_hash (verbosity : ℤ) (s : AuthState) {line : List Char} (h : '#' ∈ line) :
    readAuthLine verbosity s line = s := by
  unfold readAuthLine
  split
  · rfl
  · exact if_pos (search_commentRx_iff.mpr h)

/-- The line of an account has a `#` where the user name or the password has one. -/
theorem hash_mem_accountText_iff (a : Account) :
    '#' ∈ (AuthLine.account a).text ↔ a.hashFree = false := by
  rw [Account.hashFree, decide_eq_false_iff_not, not_and_or, not_not, not_not]
  simp [AuthLine.text, accessPrefix]

/-- **What a line stores**: an account with no `#` in it. -/
theorem access_readAuthLine (verbosity : ℤ) (s : AuthState) (line : AuthLine) :
    (readAuthLine verbosity s line.text).access
      = match line.account? with
        | some a => if a.hashFree then s.access.insert a.user a.password else s.access
        | none => s.access := by
  cases line with
  | blank t =>
      rw [AuthLine.text, readAuthLine_blank verbosity s fun c hc => (t.property c hc).1]
      rfl
  | comment t =>
      rw [AuthLine.text, readAuthLine_of_hash verbosity s List.mem_cons_self]
      rfl
  | account a =>
      show _ = if a.hashFree then _ else _
      by_cases hfree : a.hashFree = true
      · have hblank : ¬ (blankRx.first (AuthLine.account a).text).isSome = true := by
          have hnone : blankRx.first (AuthLine.account a).text = none := blankRx_first_dollar _
          rw [hnone]
          exact Bool.false_ne_true
        have hcomment : ¬ commentRx.search (AuthLine.account a).text = true := by
          rw [search_commentRx_iff, hash_mem_accountText_iff, hfree]
          exact Bool.true_eq_false.mp
        rw [if_pos hfree, readAuthLine, if_neg hblank, if_neg hcomment, accessRx_first]
      · have hhash := (hash_mem_accountText_iff a).mpr (Bool.eq_false_iff.mpr hfree)
        rw [if_neg hfree, readAuthLine_of_hash verbosity s hhash]

/-- What the lines of a file store. -/
theorem access_foldl (verbosity : ℤ) (lines : List AuthLine) (s : AuthState) :
    ((lines.map AuthLine.text).foldl (readAuthLine verbosity) s).access
      = (((lines.filterMap AuthLine.account?).filter Account.hashFree).map fun a =>
          (a.user, a.password)).foldl (fun m x => m.insert x.1 x.2) s.access := by
  induction lines generalizing s with
  | nil => rfl
  | cons line lines ih =>
      rw [List.map_cons, List.foldl_cons, ih, access_readAuthLine]
      cases hline : line.account? with
      | none => rw [List.filterMap_cons_none hline]
      | some a =>
          rw [List.filterMap_cons_some hline, List.filter_cons]
          show List.foldl _ (if a.hashFree then _ else _) _ = _
          split <;> rfl

/-- An empty rest behind the last line end is no line. -/
theorem foldl_fileLines (verbosity : ℤ) (text : List Char) (s : AuthState) :
    (fileLines text).foldl (readAuthLine verbosity) s
      = (text.splitOn '\n').foldl (readAuthLine verbosity) s := by
  unfold fileLines
  simp only
  split
  next hlast =>
      obtain ⟨front, hfront⟩ := List.getLast?_eq_some_iff.mp hlast
      rw [hfront, List.dropLast_concat, List.foldl_append]
      exact (readAuthLine_nil verbosity _).symm
  next => rfl

/-- The lines of an auth file have no line end. -/
theorem newline_notMem_text (line : AuthLine) : '\n' ∉ line.text := by
  cases line with
  | blank t => exact fun h => (t.property _ h).2 rfl
  | comment t => exact List.not_mem_cons_of_ne_of_not_mem (by decide) t.property
  | account a =>
      have huser : '\n' ∉ a.user := fun h => (a.user_plain _ h).2 rfl
      have hpassword : '\n' ∉ a.password := fun h => (a.password_plain _ h).2 rfl
      simp [AuthLine.text, accessPrefix, huser, hpassword]

/-- The loop over a file is the loop over its lines. -/
theorem foldl_splitOn_text (verbosity : ℤ) (file : AuthFile) (s : AuthState) :
    (file.text.splitOn '\n').foldl (readAuthLine verbosity) s
      = (file.lines.map AuthLine.text).foldl (readAuthLine verbosity) s := by
  have hnewline : ∀ l ∈ file.lines.map AuthLine.text, '\n' ∉ l :=
    List.forall_mem_map.mpr fun line _ => newline_notMem_text line
  unfold AuthFile.text
  by_cases hend : file.newlineAtEnd = true
  · rw [if_pos hend, List.splitOn_intercalate '\n' _ (by simp), List.foldl_append]
    · exact readAuthLine_nil verbosity _
    · exact List.forall_mem_append.mpr ⟨hnewline, by simp⟩
  · rw [if_neg hend, List.append_nil]
    by_cases hnil : file.lines.map AuthLine.text = []
    · rw [hnil]
      exact readAuthLine_nil verbosity s
    · rw [List.splitOn_intercalate '\n' hnewline hnil]

/-- **What a file stores**: its accounts with no `#`, one after the other. -/
theorem access_readAuthFile (verbosity : ℤ) (file : AuthFile) :
    (readAuthFile verbosity file.text).access
      = ((file.accounts.filter Account.hashFree).map fun a =>
          (a.user, a.password)).foldl (fun m x => m.insert x.1 x.2) ∅ := by
  rw [readAuthFile, foldl_fileLines, foldl_splitOn_text, access_foldl]
  rfl

/-- Pairs with different keys are read back from a table. -/
theorem lookup_foldl_insert_iff {α : Type} {l : List (List Char × α)} (h : (l.map Prod.fst).Nodup)
    (k : List Char) (v : α) :
    (l.foldl (fun m c => m.insert c.1 c.2) (∅ : Hash α)).lookup k = some v ↔ (k, v) ∈ l := by
  rw [lookup_foldl_insert, AList.lookup_empty, Option.or_none, Option.map_eq_some_iff]
  constructor
  · rintro ⟨⟨k', v'⟩, hlast, rfl⟩
    obtain ⟨hmem, hkey⟩ := List.mem_filter.mp (List.mem_of_getLast? hlast)
    obtain rfl : k' = k := of_decide_eq_true hkey
    exact hmem
  · intro hmem
    have hfilter : (k, v) ∈ l.filter fun c => c.1 = k := List.mem_filter.mpr ⟨hmem, by simp⟩
    obtain ⟨⟨k', v'⟩, hlast⟩ := Option.isSome_iff_exists.mp
      (List.getLast?_isSome.mpr (List.ne_nil_of_mem hfilter))
    obtain ⟨hmem', hkey⟩ := List.mem_filter.mp (List.mem_of_getLast? hlast)
    obtain rfl : k' = k := of_decide_eq_true hkey
    obtain ⟨-, rfl⟩ := Prod.mk.inj (List.inj_on_of_nodup_map h hmem' hmem rfl)
    exact ⟨(k', v'), hlast, rfl⟩

/-- **What `%ACCESS` holds**: the accounts with no `#`. -/
theorem lookup_readAuthFile_iff (verbosity : ℤ) (file : AuthFile) (user password : List Char) :
    (readAuthFile verbosity file.text).access.lookup user = some password ↔
      ∃ a ∈ file.accounts, a.hashFree = true ∧ a.user = user ∧ a.password = password := by
  have hnodup : (((file.accounts.filter Account.hashFree).map fun a =>
      (a.user, a.password)).map Prod.fst).Nodup := by
    rw [List.map_map]
    exact file.users_nodup.sublist (List.filter_sublist.map Account.user)
  rw [access_readAuthFile, lookup_foldl_insert_iff hnodup, List.mem_map]
  constructor
  · rintro ⟨a, ha, heq⟩
    obtain ⟨hmem, hfree⟩ := List.mem_filter.mp ha
    exact ⟨a, hmem, hfree, Prod.mk.inj heq⟩
  · rintro ⟨a, hmem, hfree, rfl, rfl⟩
    exact ⟨a, List.mem_filter.mpr ⟨hmem, hfree⟩, rfl⟩

/-! ## The sections written -/

/-- The lines of the section of one user. -/
def sectionLines (u secret : List Char) : List (List Char) :=
  [['['] ++ u ++ [']'], "type=friend".toList, "username=".toList ++ u, "secret=".toList ++ secret,
    "context=default".toList, "host=dynamic".toList, "nat=yes".toList, "notransfer=yes".toList,
    "regcontext=default".toList, []]

/-- The section of one user. -/
def userSection (u secret : List Char) : Section where
  name := u
  settings :=
    [("type".toList, "friend".toList), ("username".toList, u), ("secret".toList, secret),
      ("context".toList, "default".toList), ("host".toList, "dynamic".toList),
      ("nat".toList, "yes".toList), ("notransfer".toList, "yes".toList),
      ("regcontext".toList, "default".toList)]

/-- A section is written line by line. -/
theorem sectionText_eq (u secret : List Char) :
    sectionText u secret = (sectionLines u secret).flatMap (· ++ ['\n']) := by
  unfold sectionText sectionLines
  simp

/-- The section of a user sets one user name and one secret. -/
theorem values_userSection (u secret : List Char) :
    (userSection u secret).values "username".toList = [u] ∧
      (userSection u secret).values "secret".toList = [secret] := by
  simp [userSection, Section.values]

/-- The lines of a section have no line end. -/
theorem newline_notMem_sectionLines {u secret : List Char} (hu : '\n' ∉ u)
    (hsecret : '\n' ∉ secret) : ∀ line ∈ sectionLines u secret, '\n' ∉ line := by
  unfold sectionLines
  simp [hu, hsecret]

/-- The name of a section is read from its line. -/
theorem sectionName_brackets (u : List Char) : sectionName (['['] ++ u ++ [']']) = some u := by
  simp [sectionName]

/-- Only the first line of a section is a name. -/
theorem sectionName_of_mem_tail {u secret line : List Char}
    (h : line ∈ (sectionLines u secret).tail) : sectionName line = none := by
  simp only [sectionLines, List.tail_cons, List.mem_cons, List.not_mem_nil, or_false] at h
  rcases h with rfl | rfl | rfl | rfl | rfl | rfl | rfl | rfl | rfl <;> rfl

/-- The settings of a section are read from its lines. -/
theorem settings_of_tail (u secret : List Char) :
    (sectionLines u secret).tail.filterMap setting = (userSection u secret).settings := by
  simp [sectionLines, setting, userSection]

/-- Lines that are no section names start no section. -/
theorem readSections_append {front : List (List Char)} (h : ∀ l ∈ front, sectionName l = none)
    (lines : List (List Char)) : readSections (front ++ lines) = readSections lines := by
  induction front with
  | nil => rfl
  | cons l front ih =>
      rw [List.cons_append, readSections, h l List.mem_cons_self]
      exact ih fun l' hl' => h l' (List.mem_cons_of_mem l hl')

/-- The settings in front of the first section. -/
def leadingSettings (lines : List (List Char)) : List (List Char × List Char) :=
  (lines.takeWhile fun l => (sectionName l).isNone).filterMap setting

/-- A section is read from its lines, when a section or nothing comes behind. -/
theorem readSections_sectionLines (u secret : List Char) {lines : List (List Char)}
    (h : leadingSettings lines = []) :
    readSections (sectionLines u secret ++ lines)
      = userSection u secret :: readSections lines := by
  have hcons : sectionLines u secret
      = (['['] ++ u ++ [']']) :: (sectionLines u secret).tail := rfl
  have htail : ∀ l ∈ (sectionLines u secret).tail, (sectionName l).isNone = true := fun l hl =>
    Option.isNone_iff_eq_none.mpr (sectionName_of_mem_tail hl)
  unfold leadingSettings at h
  rw [hcons, List.cons_append, readSections, sectionName_brackets]
  simp only
  rw [List.takeWhile_append_of_pos htail, List.filterMap_append, h, List.append_nil,
    settings_of_tail, readSections_append fun l hl => sectionName_of_mem_tail hl]
  rfl

/-- **The sections of all users are read from their lines.** -/
theorem readSections_users (secret : List Char → List Char) (keys : List (List Char)) :
    readSections (keys.flatMap (fun u => sectionLines u (secret u)) ++ [[]])
        = keys.map (fun u => userSection u (secret u)) ∧
      leadingSettings (keys.flatMap (fun u => sectionLines u (secret u)) ++ [[]]) = [] := by
  induction keys with
  | nil => exact ⟨rfl, rfl⟩
  | cons u keys ih =>
      rw [List.flatMap_cons, List.append_assoc, readSections_sectionLines u _ ih.2, ih.1]
      refine ⟨rfl, ?_⟩
      unfold leadingSettings sectionLines
      rw [List.cons_append, List.takeWhile_cons, sectionName_brackets]
      rfl

/-- The line that says when the text was written. -/
def stampLine (tm : Tm) (n : ℕ) : List Char :=
  "; generated by ".toList ++ pgmname ++ ", on ".toList ++ utcText tm ++ " UTC, adding ".toList ++
    Nat.toDigits 10 n ++ " users.".toList

/-- The text is written line by line. -/
theorem createConfig_eq (tm : Tm) (keys : List (List Char)) (access : Hash (List Char)) :
    createConfig tm keys access
      = ([[], stampLine tm keys.length, []] ++
          keys.flatMap fun u => sectionLines u ((access.lookup u).getD [])).flatMap
            (· ++ ['\n']) := by
  rw [List.flatMap_append, List.flatMap_assoc]
  unfold createConfig stampLine
  simp only [← sectionText_eq, List.flatMap_cons, List.flatMap_nil]
  -- the fixed texts are letters from here on
  generalize "; generated by ".toList = generated
  generalize ", on ".toList = on
  generalize " UTC, adding ".toList = adding
  generalize " users.".toList = users
  simp

/-- The stamp has no line end. -/
theorem newline_notMem_stampLine (tm : Tm) (n : ℕ) : '\n' ∉ stampLine tm n := by
  have hdigit : ∀ c : Char, c.isDigit = true → c ≠ '\n' := by
    rintro c hc rfl
    exact absurd hc (by decide)
  have hpadded : ∀ w m, '\n' ∉ padded w m := fun w m h => hdigit _ (isDigit_of_mem_padded h) rfl
  have hdigits : '\n' ∉ Nat.toDigits 10 n := fun h =>
    hdigit _ (Nat.isDigit_of_mem_toDigits (by decide) (by decide) h) rfl
  have hutc : '\n' ∉ utcText tm := by simp [utcText, hpadded]
  unfold stampLine
  have hfront : '\n' ∉ "; generated by ".toList ++ pgmname ++ ", on ".toList := by decide
  have hmiddle : '\n' ∉ " UTC, adding ".toList := by decide
  have hback : '\n' ∉ " users.".toList := by decide
  exact List.not_mem_append (List.not_mem_append (List.not_mem_append
    (List.not_mem_append hfront hutc) hmiddle) hdigits) hback

/-- **The sections of the text written**: one for each key, in the order of the keys. -/
theorem sectionsOf_createConfig (tm : Tm) {keys : List (List Char)} {access : Hash (List Char)}
    (hkeys : ∀ u ∈ keys, '\n' ∉ u ∧ '\n' ∉ (access.lookup u).getD []) :
    sectionsOf (createConfig tm keys access)
      = keys.map fun u => userSection u ((access.lookup u).getD []) := by
  have hlines : ∀ l ∈ [[], stampLine tm keys.length, []] ++
      keys.flatMap fun u => sectionLines u ((access.lookup u).getD []), '\n' ∉ l := by
    refine List.forall_mem_append.mpr ⟨?_, ?_⟩
    · simp [newline_notMem_stampLine]
    · intro l hl
      obtain ⟨u, hu, hl⟩ := List.mem_flatMap.mp hl
      exact newline_notMem_sectionLines (hkeys u hu).1 (hkeys u hu).2 l hl
  have hfront : ∀ l ∈ [[], stampLine tm keys.length, []], sectionName l = none := by
    simp only [List.forall_mem_cons]
    exact ⟨rfl, rfl, rfl, List.forall_mem_nil _⟩
  rw [sectionsOf, createConfig_eq, splitOn_lines hlines, List.append_assoc,
    readSections_append hfront]
  exact (readSections_users _ keys).1

/-! ## When the accounts reach the configuration -/

/-- **The sections of a table that holds the accounts** are those of the accounts. -/
theorem sections_perm (tm : Tm) {file : AuthFile} {access : Hash (List Char)}
    (hmap : ∀ user password, access.lookup user = some password ↔
      ∃ a ∈ file.accounts, a.user = user ∧ a.password = password)
    {keys : List (List Char)} (hkeys : keys.Perm access.keys) :
    ((sectionsOf (createConfig tm keys access)).map fun s =>
        (s.name, s.values "username".toList, s.values "secret".toList)).Perm
      (file.accounts.map fun a => (a.user, [a.user], [a.password])) := by
  have hlookup : ∀ a ∈ file.accounts, access.lookup a.user = some a.password := fun a ha =>
    (hmap _ _).mpr ⟨a, ha, rfl, rfl⟩
  have hmem : ∀ u, u ∈ keys ↔ u ∈ file.accounts.map Account.user := by
    intro u
    rw [hkeys.mem_iff, List.mem_map]
    constructor
    · intro hu
      obtain ⟨password, hpassword⟩ := Option.isSome_iff_exists.mp (AList.lookup_isSome.mpr hu)
      obtain ⟨a, ha, huser, -⟩ := (hmap u password).mp hpassword
      exact ⟨a, ha, huser⟩
    · rintro ⟨a, ha, rfl⟩
      exact AList.lookup_isSome.mp (Option.isSome_iff_exists.mpr ⟨_, hlookup a ha⟩)
  have hplain : ∀ u ∈ keys, '\n' ∉ u ∧ '\n' ∉ (access.lookup u).getD [] := by
    intro u hu
    obtain ⟨a, ha, rfl⟩ := List.mem_map.mp ((hmem u).mp hu)
    rw [hlookup a ha]
    exact ⟨fun h => (a.user_plain _ h).2 rfl, fun h => (a.password_plain _ h).2 rfl⟩
  have hperm : keys.Perm (file.accounts.map Account.user) :=
    (List.perm_ext_iff_of_nodup (hkeys.nodup_iff.mpr access.nodupKeys) file.users_nodup).mpr hmem
  have hsections : (sectionsOf (createConfig tm keys access)).map (fun s =>
      (s.name, s.values "username".toList, s.values "secret".toList))
        = keys.map fun u => (u, [u], [(access.lookup u).getD []]) := by
    rw [sectionsOf_createConfig tm hplain, List.map_map]
    refine List.map_congr_left fun u _ => ?_
    obtain ⟨husername, hsecret⟩ := values_userSection u ((access.lookup u).getD [])
    exact Prod.ext rfl (Prod.ext husername hsecret)
  rw [hsections]
  refine (hperm.map _).trans (List.Perm.of_eq ?_)
  rw [List.map_map]
  refine List.map_congr_left fun a ha => ?_
  show (a.user, [a.user], [(access.lookup a.user).getD []]) = _
  rw [hlookup a ha]
  rfl

/-- **When the accounts reach the configuration**: when no user name and no password has a `#`. -/
theorem configured_iff (verbosity : ℤ) (tm : Tm) (file : AuthFile) :
    Configured verbosity tm file ↔ NoHash file := by
  have hfree : ∀ a : Account, a.hashFree = true ↔ '#' ∉ a.user ∧ '#' ∉ a.password := fun a =>
    decide_eq_true_iff
  constructor
  · rintro ⟨hmap, -⟩ a ha
    obtain ⟨b, -, hbfree, huser, hpassword⟩ := (lookup_readAuthFile_iff verbosity file _ _).mp
      ((hmap a.user a.password).mpr ⟨a, ha, rfl, rfl⟩)
    rw [← huser, ← hpassword]
    exact (hfree b).mp hbfree
  · intro hno
    have hmap : ∀ user password,
        (readAuthFile verbosity file.text).access.lookup user = some password ↔
          ∃ a ∈ file.accounts, a.user = user ∧ a.password = password := by
      intro user password
      rw [lookup_readAuthFile_iff]
      exact ⟨fun ⟨a, ha, _, heq⟩ => ⟨a, ha, heq⟩,
        fun ⟨a, ha, heq⟩ => ⟨a, ha, (hfree a).mpr (hno a ha), heq⟩⟩
    exact ⟨hmap, fun keys hkeys => sections_perm tm hmap hkeys⟩

/-- An account with a `#` in its password. -/
def hashAccount : Account where
  user := "pilot".toList
  password := "a#b".toList
  user_ne := by decide
  password_ne := by decide
  user_plain := by simp [isQuote]
  password_plain := by simp [isQuote]

/-- A file with this account only. -/
def hashFile : AuthFile where
  lines := [.account hashAccount]
  newlineAtEnd := true
  users_nodup := List.nodup_singleton _

/-- The account is dropped without a message, and has no section. -/
theorem hash_password_lost :
    (readAuthFile 0 hashFile.text).access.keys = [] ∧ (readAuthFile 0 hashFile.text).stdout = [] ∧
      sectionsOf (createConfig ⟨124, 0, 1, 12, 0, 0⟩ [] (readAuthFile 0 hashFile.text).access)
        = [] ∧
      ¬ Configured 0 ⟨124, 0, 1, 12, 0, 0⟩ hashFile := by
  have hread : readAuthFile 0 hashFile.text = ⟨∅, []⟩ := by
    rw [readAuthFile, foldl_fileLines, foldl_splitOn_text]
    exact readAuthLine_of_hash 0 _ ((hash_mem_accountText_iff hashAccount).mpr (by decide))
  rw [hread]
  refine ⟨rfl, rfl, ?_, ?_⟩
  · rw [sectionsOf_createConfig _ (List.forall_mem_nil _)]
    rfl
  · rintro ⟨hmap, -⟩
    have hsome := (hmap hashAccount.user hashAccount.password).mpr
      ⟨hashAccount, List.mem_cons_self, rfl, rfl⟩
    rw [hread] at hsome
    exact absurd hsome (by decide)

end Fgcom.ServerConfig
