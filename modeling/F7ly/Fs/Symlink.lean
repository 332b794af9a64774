import F7ly.Lib.Path

/-!
# Path normalization and symbolic links

`resolve_symlinks` turns an absolute path into one without symbolic links. It
scans the components from the root until it meets a link, splices the link's
target and the rest of the path behind the directory of the link, normalizes
the whole text and starts over, at most 8 times. `normalize_path` works on the
text alone: `..` removes the component written before it.

`Tree` is the file system the scan asks about. `Tree.walk` is the meaning a
path has in it: components from left to right, a link's target walked from the
link's directory, and `..` applied to the directory that was reached.
-/

namespace F7ly.Fs.Symlink

open Path

inductive Errno where
  | enoent
  | enotdir
  | eloop
  deriving DecidableEq

inductive Kind where
  | dir
  | file
  | link (target : Text)
  deriving DecidableEq

/-- A directory tree: what stands at each place, a place being the names that
lead to it from the root. Only directories have anything below them. -/
structure Tree where
  kind : List Text → Option Kind
  root : kind [] = some .dir
  parent : ∀ d c, kind (d ++ [c]) ≠ none → kind d = some .dir

def dot : Text := ['.']

def dotDot : Text := ['.', '.']

/-- A component that names a directory already passed. -/
def IsDots (c : Text) : Prop := c = dot ∨ c = dotDot

instance (c : Text) : Decidable (IsDots c) := inferInstanceAs (Decidable (_ ∨ _))

/-- The loop of `path_needs_normalization`; `size` is the length of the whole
path, `component` what has been read since the last slash. -/
def needsFrom (size : Nat) (previousWasSlash : Bool) (component : Text) : Text → Bool
  | [] => IsDots component || (component = [] && 1 < size)
  | c :: rest =>
      if c = '/' then
        previousWasSlash || IsDots component || needsFrom size true [] rest
      else needsFrom size false (component ++ [c]) rest

def pathNeedsNormalization (path : Text) : Bool :=
  if path = [] then false else needsFrom path.length false [] path

/-- One component of the second loop of `normalize_path`. -/
def pushComponent (isAbsolute : Bool) (normalized : List Text) (comp : Text) : List Text :=
  if comp = dot then normalized
  else if comp = dotDot then
    if normalized ≠ [] ∧ normalized.getLast? ≠ some dotDot then normalized.dropLast
    else if !isAbsolute then normalized ++ [comp]
    else normalized
  else normalized ++ [comp]

/-- The third loop: a slash before every component but the first of a relative
path, unless one stands there already. -/
def rebuild (isAbsolute : Bool) : Text → List Text → Text
  | result, [] => result
  | result, comp :: comps =>
      let result :=
        if (result ≠ [] ∨ isAbsolute) ∧ result.getLast? ≠ some '/' then result ++ ['/']
        else result
      rebuild isAbsolute (result ++ comp) comps

def normalizePath (path : Text) : Text :=
  if path = [] then path
  else if !pathNeedsNormalization path then path
  else
    let isAbsolute := path.head? = some '/'
    let normalized := (components path).foldl (pushComponent isAbsolute) []
    let result := rebuild isAbsolute (if isAbsolute then ['/'] else []) normalized
    if result = [] then (if isAbsolute then ['/'] else dot) else result

inductive Scan where
  | plain (current : Text)
  | link (current rest : Text)
  | fail (e : Errno)
  deriving DecidableEq

def isSlash (c : Char) : Bool := c = '/'

def Tree.path2filetype (t : Tree) (path : Text) : Option Kind := t.kind (components path)

/-- The component loop: `rest` is the pending path from the cursor on. Every
round consumes a character, so the length of the path is fuel enough. -/
def Tree.scan (t : Tree) : Nat → Text → Text → Scan
  | 0, current, _ => .plain current
  | fuel + 1, current, rest =>
      let rest := rest.dropWhile isSlash
      if rest = [] then .plain current
      else
        let component := rest.takeWhile (!isSlash ·)
        let rest := rest.dropWhile (!isSlash ·)
        let current :=
          (if current.getLast? ≠ some '/' then current ++ ['/'] else current) ++ component
        let hasMoreComponents := rest.dropWhile isSlash ≠ []
        match t.path2filetype current with
        | some (.link _) => .link current rest
        | type =>
            if hasMoreComponents ∧ type = none then .fail .enoent
            else if hasMoreComponents ∧ type ≠ some .dir then .fail .enotdir
            else t.scan fuel current rest

/-- `read_symlink_target_for_path`. -/
def Tree.readSymlinkTarget (t : Tree) (path : Text) : Except Errno Text :=
  match t.path2filetype path with
  | some (.link target) => .ok target
  | _ => .error .enoent

def dirPart (path : Text) : Text := (path.reverse.dropWhile (!isSlash ·)).reverse

/-- The link's target in the place of the link, and the rest behind it. -/
def splice (current target rest : Text) : Text :=
  let newPath :=
    if target.head? = some '/' then target
    else if (dirPart current).length ≤ 1 then '/' :: target
    else dirPart current ++ target
  let rest := rest.dropWhile isSlash
  if rest = [] then newPath
  else (if newPath.getLast? ≠ some '/' then newPath ++ ['/'] else newPath) ++ rest

/-- `try_find_first_ext4_symlink`: for some paths the file system scans the
components itself and answers with an error, with the end of the first link's
component, or with 0 where there is none. -/
abbrev FastLookup := Text → Option (Except Errno Nat)

/-- What the loop body looks for, by the fast lookup or component by
component. -/
def Tree.findLink (t : Tree) (fast : FastLookup) (pending : Text) : Scan :=
  match fast pending with
  | some (.error e) => .fail e
  | some (.ok 0) => .plain pending
  | some (.ok n) => .link (pending.take n) (pending.drop n)
  | none => t.scan pending.length ['/'] pending

def Tree.resolveSymlinks (t : Tree) (fast : FastLookup) : Nat → Text → Except Errno Text
  | 0, _ => .error .eloop
  | depth + 1, pending =>
      match t.findLink fast pending with
      | .fail e => .error e
      | .plain current => .ok current
      | .link current rest =>
          match t.readSymlinkTarget current with
          | .error e => .error e
          | .ok target =>
              t.resolveSymlinks fast depth (normalizePath (splice current target rest))

/-- The fast lookup answers as the scan would, for paths in normal form. -/
def Tree.Agrees (t : Tree) (fast : FastLookup) : Prop :=
  ∀ path answer, fast path = some answer → pathNeedsNormalization path = false ∧
    answer = match t.scan path.length ['/'] path with
      | .fail e => .error e
      | .plain _ => .ok 0
      | .link current _ => .ok current.length

/-- A walk up to its end or to the first link it meets. -/
inductive Stop where
  | reached (place : List Text)
  | fail (e : Errno)
  | meets (dir : List Text) (target : Text) (rest : List Text)
  deriving DecidableEq

/-- Components from left to right; a component is looked up in a directory
only, and what the last one names need not be there. -/
def Tree.advance (t : Tree) : List Text → List Text → Stop
  | place, [] => .reached place
  | place, c :: rest =>
      match t.kind place with
      | none => .fail .enoent
      | some .file => .fail .enotdir
      | some (.link _) => .fail .enotdir
      | some .dir =>
          if c = dot then t.advance place rest
          else if c = dotDot then t.advance place.dropLast rest
          else
            match t.kind (place ++ [c]) with
            | some (.link target) => .meets place target rest
            | _ => t.advance (place ++ [c]) rest

def startOf (dir : List Text) (target : Text) : List Text :=
  if target.head? = some '/' then [] else dir

/-- The POSIX walk. It gives up, with `none`, at the link after the first
`links`. -/
def Tree.walk (t : Tree) (links : Nat) (place comps : List Text) :
    Option (Except Errno (List Text)) :=
  match t.advance place comps with
  | .reached r => some (.ok r)
  | .fail e => some (.error e)
  | .meets dir target rest =>
      match links with
      | 0 => none
      | links + 1 => t.walk links (startOf dir target) (components target ++ rest)

end F7ly.Fs.Symlink
