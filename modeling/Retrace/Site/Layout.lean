/-!
# The layout of a page

All pages of the site have the same frame: a head, a bar with links, the content, and a foot.

* `Page`: a title and the lines of the content.
* `Page.html`: the whole page.
* `paragraph`, `heading`, `panel`: parts of a content.
-/

set_option autoImplicit false
namespace Retrace
namespace Site

/-- A page: its title, and the lines of its content. -/
structure Page where
  title : String
  content : List String
deriving Inhabited, Repr

/-- The address of a file that belongs to the site. -/
def asset (path : String) : String :=
  "/static/" ++ path

/-- The lines above the content. -/
def top (title : String) : List String :=
  ["<!DOCTYPE html>",
   "<html lang=\"en\">",
   "<head>",
   "    <meta charset=\"UTF-8\">",
   "    <meta name=\"viewport\" content=\"width=device-width, initial-scale=1.0\">",
   "    <title>" ++ title ++ "</title>",
   "    <link rel=\"stylesheet\" href=\"" ++ asset "css/bootstrap.min.css" ++ "\">",
   "    <link rel=\"stylesheet\" href=\"" ++ asset "css/codemirror.min.css" ++ "\">",
   "    <link rel=\"stylesheet\" href=\"" ++ asset "css/style.css" ++ "\">",
   "    ",
   "    ",
   "</head>",
   "<body>",
   "<div class=\"navbar\">",
   "    <div class=\"navbar-logo\">",
   "        <img src=\"" ++ asset "img/logo.webp" ++ "\" alt=\"Ulto Logo\">",
   "    </div>",
   "    <div class=\"navbar-items\">",
   "        <a href=\"/\">Home</a>",
   "        <a href=\"/codespace\">Codespace</a>",
   "        <a href=\"/documentation\">Documentation</a>",
   "        <a href=\"/about\">About</a>",
   "    </div>",
   "</div>",
   "<div class=\"main-container\">"]

/-- The lines below the content. -/
def bottom : List String :=
  ["</div>",
   "",
   "<footer>",
   "    <p>&copy; 2024 The Ulto Project | Developed by Aman Thapa Magar</p>",
   "</footer>",
   "<script src=\"" ++ asset "js/bootstrap.bundle.min.js" ++ "\"></script>",
   "<script src=\"" ++ asset "js/codemirror.min.js" ++ "\"></script>",
   "<script src=\"" ++ asset "js/python.min.js" ++ "\"></script>",
   "<script src=\"" ++ asset "js/script.js" ++ "\"></script>",
   "</body>",
   "</html>"]

/-- The text of a page.  The content starts behind four blanks on a line of its own. -/
def Page.html (p : Page) : String :=
  "\n".intercalate (top p.title ++ ["    " ++ "\n".intercalate p.content] ++ bottom)

/-! ## Parts of a content -/

/-- A paragraph. -/
def paragraph (text : String) : List String :=
  ["    <p>" ++ text ++ "</p>"]

/-- A heading of a given level. -/
def heading (level : Nat) (text : String) : List String :=
  ["    <h" ++ toString level ++ ">" ++ text ++ "</h" ++ toString level ++ ">"]

/-- A box with a title, lines of code, and a remark. -/
def panel (kind title : String) (code : List String) (remark : String) (more : List String) :
    List String :=
  ["    <div class=\"" ++ kind ++ "\">",
   "        <h4>" ++ title ++ "</h4>",
   "        <pre><code>" ++ "\n".intercalate code ++ "</code></pre>",
   "        <p>" ++ remark ++ "</p>"] ++ more ++ ["    </div>"]

end Site
end Retrace
