import BasicSSA.Text

/-!
# Path names in normal form

The normal form of a path has no `.` part, no doubled slash, no name before `..` and no `..` right
after the root. A path that named a directory by its last part keeps a slash at its end, except
after `..`. The empty path stays empty, and any other path that has no part left is `.`.
-/

namespace BasicSSA.Path

/-- A path read up to some part: whether it starts at the root, its names with the last one first,
and whether a slash follows the last name. -/
structure Progress where
  rooted : Bool
  names : List String := []
  slash : Bool := false

def Progress.push (p : Progress) (part : String) : Progress :=
  if part == "" || part == "." then { p with slash := !p.names.isEmpty }
  else if part == ".." then
    match p.names with
    | [] => if p.rooted then p else { p with names := [".."] }
    | last :: names =>
      if last == ".." then { p with names := ".." :: p.names, slash := false }
      else { p with names, slash := !names.isEmpty }
  else { p with names := part :: p.names, slash := false }

def Progress.text (p : Progress) : String :=
  let slash := p.slash && p.names.head? != some ".."
  let text := (if p.rooted then "/" else "") ++ joinWith "/" p.names.reverse ++
    (if slash then "/" else "")
  if text == "" then "." else text

def parts : List Char → List (List Char)
  | [] => [[]]
  | c :: rest =>
    if c == '/' then [] :: parts rest
    else
      match parts rest with
      | [] => [[c]]
      | word :: words => (c :: word) :: words

def normalize (path : String) : String :=
  if path == "" then ""
  else
    let parts := (parts path.toList).map String.ofList
    (parts.foldl Progress.push { rooted := path.toList.head? == some '/' }).text

end BasicSSA.Path
