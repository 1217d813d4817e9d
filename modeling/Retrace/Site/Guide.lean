import Retrace.Site.Layout

/-!
# The documentation

One page leads to three others: on variables and data, on control structures and on reversal.  All
four open with the same introduction.
-/

set_option autoImplicit false
namespace Retrace
namespace Site

/-- The title of all pages of the documentation. -/
def guideTitle : String := "Documentation | Ulto Project"

/-- The introduction; the links stand in the given place. -/
def introduction (place : String) : List String :=
  ["",
   "<div class=\"content\">",
   "    <div class=\"heading\"><h1>Documentation</h1></div>",
   "    <p>This documentation provides an in-depth guide to the Ulto programming language. " ++
     "Use the navigation links " ++
     place ++ " to explore detailed sections on Variables and Data, Control Structures, and " ++
     "Reversibility in Ulto. Each section includes grammar rules, code examples, and " ++
     "comprehensive descriptions to help you understand the key features of the language.</p>",
   "    <nav>",
   "        <ul>",
   "            <li><a href=\"/vardata\">Variables and Data</a></li>",
   "            <li><a href=\"/control\">Control Structures</a></li>",
   "            <li><a href=\"/reverse\">Reversibility</a></li>",
   "        </ul>",
   "",
   "    </nav>",
   "    <p>For detailed docstring for the codebase you can visit on the link below</p>",
   "    <ul>",
   "        <li><a href=\"/docstrings\">Ulto Docstrings</a></li>",
   "    </ul>"]

/-- The end of a page of the documentation. -/
def ending : List String :=
  ["</div>", "", ""]

/-- The first page of the documentation. -/
def documentation : Page where
  title := guideTitle
  content := introduction "above" ++ ending

/-- The page on variables and data. -/
def storage : Page where
  title := guideTitle
  content := introduction "below" ++ List.flatten
    [heading 2 "Variables and Data",
     paragraph
      ("In Ulto, variables and data handling are designed to support both traditional and " ++
       "reversible programming paradigms. The language's approach to memory management " ++
       "ensures that variables can be assigned new values without losing their previous " ++
       "states, making it easier to revert operations if needed."),
     [""],
     heading 3 "1. Variables",
     paragraph
      ("Variables in Ulto are declared and assigned values using typical syntax. However, " ++
       "unlike conventional languages where variable assignment is a destructive process, " ++
       "Ulto preserves the history of each variable's state using a log stack."),
     [""],
     panel "example" "Example: Variable Assignment"
      ["x = 10",
       "x += 5",
       "print(x)  # Outputs: 15"]
      ("In this example, <code>x</code> is first assigned the value <code>10</code> and then " ++
       "incremented by <code>5</code>. The current value of <code>x</code> is " ++
       "<code>15</code>.")
      [],
     [""],
     panel "grammar" "Grammar Rule: Assignment"
      ["assignment",
       "    : ID ASSIGN expression",
       "    | ID PLUS_ASSIGN expression",
       "    | ID MINUS_ASSIGN expression",
       "    | ID TIMES_ASSIGN expression",
       "    | ID OVER_ASSIGN expression",
       "    ;"]
      ("This grammar rule defines how variable assignments are structured in Ulto. It shows " ++
       "that an assignment consists of an identifier (<code>ID</code>), followed by an " ++
       "assignment operator (<code>=</code>, <code>+=</code>, etc.), and an expression.")
      [],
     [""],
     heading 3 "2. Data Types",
     paragraph
      ("Ulto supports various data types, including numbers and strings. The language's " ++
       "syntax for working with these data types is straightforward, making it easy to " ++
       "perform operations on variables."),
     [""],
     panel "example" "Example: Data Types"
      ["num = 42",
       "text = \"Hello, World!\"",
       "print(num)  # Outputs: 42",
       "print(text)  # Outputs: Hello, World!"]
      ("Here, <code>num</code> is an integer, and <code>text</code> is a string. Both " ++
       "variables are printed, showing their respective values.")
      [],
     [""],
     panel "grammar" "Grammar Rule: Primary Expressions"
      ["primaryExpression",
       "    : NUMBER",
       "    | STRING",
       "    | TRUE",
       "    | FALSE",
       "    | ID",
       "    ;"]
      ("This grammar rule specifies how primary expressions are formed, including numbers, " ++
       "strings, booleans, and identifiers. These are the basic building blocks for more " ++
       "complex expressions.")
      [],
     [""],
     heading 3 "3. Memory Management",
     paragraph
      ("Memory management in Ulto is enhanced by the use of a log stack, which records every " ++
       "change made to a variable. This ensures that no information is destroyed during the " ++
       "execution of a program, allowing for easy reversal of operations."),
     [""],
     panel "example" "Example: Non-destructive Assignment"
      ["y = 50",
       "y /= 2",
       "print(y)  # Outputs: 25"]
      ("Even though <code>y</code> is divided by 2, the original value is preserved in the " ++
       "log stack, allowing for potential reversal if needed.")
      ["        <br>"]] ++ ending

/-- The page on control structures. -/
def control : Page where
  title := guideTitle
  content := introduction "below" ++ List.flatten
    [heading 2 "Control Structures",
     paragraph
      ("Control structures in Ulto allow developers to direct the flow of program execution. " ++
       "These structures include conditionals, loops, and other branching mechanisms that " ++
       "enable dynamic decision-making within the code."),
     [""],
     heading 3 "1. Conditionals",
     paragraph
      ("Ulto supports conditional statements using <code>if</code>, <code>elif</code>, and " ++
       "<code>else</code>. These statements allow the program to execute certain blocks of " ++
       "code based on the evaluation of expressions."),
     [""],
     panel "example" "Example: If-Else Statement"
      ["if x > 10:",
       "    y = 20",
       "elif x == 10:",
       "    y = 15",
       "else:",
       "    y = 5"]
      ("This code evaluates the value of <code>x</code> and assigns a value to " ++
       "<code>y</code> based on the condition. If <code>x</code> is greater than 10, " ++
       "<code>y</code> becomes 20; if <code>x</code> equals 10, <code>y</code> becomes 15; " ++
       "otherwise, <code>y</code> is set to 5.")
      [],
     [""],
     panel "grammar" "Grammar Rule: If Statement"
      ["ifStatement",
       "    : IF expression block (ELIF expression block)* (ELSE block)?",
       "    ;"]
      ("This rule defines the structure of an <code>if</code> statement in Ulto. It shows " ++
       "that an <code>if</code> statement can include multiple <code>elif</code> branches " ++
       "and an optional <code>else</code> branch, each associated with a block of code.")
      [],
     [""],
     heading 3 "2. Loops",
     paragraph
      ("Loops in Ulto allow the execution of a block of code multiple times. The language " ++
       "provides both <code>for</code> and <code>while</code> loops to handle repetitive " ++
       "tasks."),
     [""],
     panel "example" "Example: For Loop"
      ["for i in range(0, 5):",
       "    print(i)"]
      ("This loop iterates from 0 to 4, printing each number. The <code>range</code> " ++
       "function generates the sequence of numbers.")
      [],
     [""],
     panel "grammar" "Grammar Rule: For Loop"
      ["forLoop",
       "    : FOR ID IN iterable block",
       "    ;"]
      ("This rule defines the structure of a <code>for</code> loop in Ulto. The loop " ++
       "iterates over an <code>iterable</code> object, executing a block of code for each " ++
       "item in the sequence.")
      [],
     [""],
     panel "example" "Example: While Loop"
      ["x = 5",
       "while x > 0:",
       "    print(x)",
       "    x -= 1"]
      ("This loop continues to execute as long as <code>x</code> is greater than 0. It " ++
       "prints the value of <code>x</code> and then decrements it by 1 in each iteration.")
      [],
     [""],
     panel "grammar" "Grammar Rule: While Loop"
      ["whileLoop",
       "    : WHILE expression block",
       "    ;"]
      ("This rule defines the structure of a <code>while</code> loop in Ulto. The loop " ++
       "repeatedly executes a block of code as long as the specified expression evaluates to " ++
       "true.")
      [],
     [""],
     heading 3 "3. Combining Conditionals and Loops",
     paragraph
      ("Ulto allows conditionals and loops to be combined for more complex control flow. " ++
       "This can be useful in scenarios where the loop's execution depends on a condition."),
     [""],
     panel "example" "Example: Nested Conditionals and Loops"
      ["for i in range(1, 11):",
       "    if i % 2 == 0:",
       "        print(f\"\x7bi\x7d is even\")",
       "    else:",
       "        print(f\"\x7bi\x7d is odd\")"]
      ("This code iterates through numbers 1 to 10. It checks if each number is even or odd " ++
       "and prints the appropriate message.")
      []] ++ ending

/-- The page on reversal. -/
def reversal : Page where
  title := guideTitle
  content := introduction "below" ++ List.flatten
    [heading 2 "Reversibility",
     paragraph
      ("One of the defining features of the Ulto programming language is its support for " ++
       "reversible computing. Reversibility allows the program's state to be traced back to " ++
       "previous states, providing a powerful mechanism for debugging, rollback, and state " ++
       "management. This is achieved primarily through the <code>rev</code> and " ++
       "<code>revtrace</code> tokens."),
     [""],
     heading 3 "1. The `rev` Token",
     paragraph
      ("The <code>rev</code> token enables the reversal of a variable's state to its " ++
       "immediately previous value. This operation is sequential, ensuring that the program " ++
       "can only be reversed in the exact order the operations were performed, preserving " ++
       "the integrity of the execution flow."),
     [""],
     panel "example" "Example: Using `rev`"
      ["x = 10",
       "x += 5",
       "print(x)  # Outputs: 15",
       "rev x",
       "print(x)  # Outputs: 10"]
      ("In this example, the variable <code>x</code> is incremented by 5, and then the " ++
       "<code>rev</code> operation reverts <code>x</code> to its original value of 10.")
      [],
     [""],
     panel "grammar" "Grammar Rule: Reverse Statement"
      ["reverse",
       "    : REV ID",
       "    ;"]
      ("This grammar rule defines the structure of a <code>rev</code> statement in Ulto. It " ++
       "shows that the <code>rev</code> keyword is followed by an identifier, which " ++
       "specifies the variable to be reversed.")
      [],
     [""],
     heading 3 "2. The `revtrace` Token",
     paragraph
      ("The <code>revtrace</code> token allows you to view the history of a variable's state " ++
       "over multiple operations. However, unlike <code>rev</code>, <code>revtrace</code> " ++
       "does not revert the variable to a previous state; it only prints the past states for " ++
       "inspection. The actual reversal still requires the use of <code>rev</code>."),
     [""],
     panel "example" "Example: Using `revtrace`"
      ["x = 5",
       "x += 10",
       "x *= 2",
       "print(x)  # Outputs: 30",
       "revtrace x 2",
       "# Outputs the state 2 steps back: 5",
       "rev x",
       "print(x)  # Outputs: 20 (Reverts one step back to x *= 2)"]
      ("Here, <code>revtrace x 2</code> prints the value of <code>x</code> from two " ++
       "operations ago, but <code>rev x</code> only reverts the variable to its previous one " ++
       "at a time. This is done to ensure no variables are destroyed during the process and " ++
       "all reversal are sequential without missing a step to ensuring intergrity for " ++
       "reversibility.")
      [],
     [""],
     panel "grammar" "Grammar Rule: Revtrace Statement"
      ["revtrace",
       "    : REVTRACE ID NUMBER",
       "    ;"]
      ("This grammar rule defines the structure of a <code>revtrace</code> statement. It " ++
       "includes the <code>revtrace</code> keyword followed by an identifier and a number, " ++
       "indicating how far back in the history to trace.")
      [],
     [""],
     heading 3 "3. Preserving State with LogStack",
     paragraph
      ("Unlike traditional programming languages, where variable assignment is often " ++
       "destructive (overwriting the previous value), Ulto uses a log stack to preserve " ++
       "every state change. This allows the program to safely reverse operations without " ++
       "losing any information."),
     [""],
     panel "example" "Example: Non-destructive Assignment"
      ["y = 50",
       "y /= 2",
       "rev y",
       "print(y)  # Outputs: 50"]
      ("Even though <code>y</code> was divided by 2, the original value is preserved in the " ++
       "log stack. The <code>rev</code> operation restores <code>y</code> to 50.")
      [],
     [""],
     heading 3 "4. Pruning Operations",
     paragraph
      ("To manage memory efficiently, Ulto includes pruning operations that selectively " ++
       "remove older states from the log stack. This ensures that the program doesn't " ++
       "consume excessive memory while still retaining the ability to reverse recent " ++
       "operations."),
     [""],
     panel "example" "Example: Pruning in Action"
      ["z = 100",
       "z += 25",
       "z -= 10",
       "rev z",
       "print(z)  # Outputs: 115 (reverts the last operation)"]
      ("Here, <code>rev z</code> reverts the last operation, but older states may be pruned " ++
       "if memory constraints require it. The program ensures that the most recent " ++
       "operations can still be reversed.")
      []] ++ ending

end Site
end Retrace
